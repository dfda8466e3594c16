import TribunusCompute.Grammar.Subset
import TribunusCompute.Grammar.Unmoved

/-!
# What a compiled grammar accepts

Every automaton accepts what the fragment of its root accepts. Fragments of leaves
denote the right language; the composites do not: their copies of other fragments
keep the old targets, and a sequence gains an epsilon back into its first part.
-/
namespace TribunusCompute.Gbnf

open Failures

/-- The language of a node. -/
inductive Denotes (rules : Rules) : GrammarNode → List Char → Prop
  | lit (s : String) : Denotes rules (.lit s) s.toList
  | charClass {chars : List (Char × Char)} {negated : Bool} {ch : Char}
      (member : ch ∈ classChars chars negated) : Denotes rules (.charClass chars negated) [ch]
  | any {ch : Char} (member : ch ∈ practicalUniverse) : Denotes rules .any [ch]
  | seqNil : Denotes rules (.seq []) []
  | seqCons {node : GrammarNode} {nodes : List GrammarNode} {s t : List Char}
      (first : Denotes rules node s) (rest : Denotes rules (.seq nodes) t) :
      Denotes rules (.seq (node :: nodes)) (s ++ t)
  | alt {node : GrammarNode} {nodes : List GrammarNode} {s : List Char} (member : node ∈ nodes)
      (branch : Denotes rules node s) : Denotes rules (.alt nodes) s
  | starNil {inner : GrammarNode} : Denotes rules (.star inner) []
  | starCons {inner : GrammarNode} {s t : List Char} (first : Denotes rules inner s)
      (rest : Denotes rules (.star inner) t) : Denotes rules (.star inner) (s ++ t)
  | plus {inner : GrammarNode} {s t : List Char} (first : Denotes rules inner s)
      (rest : Denotes rules (.star inner) t) : Denotes rules (.plus inner) (s ++ t)
  | optNone {inner : GrammarNode} : Denotes rules (.opt inner) []
  | optSome {inner : GrammarNode} {s : List Char} (branch : Denotes rules inner s) :
      Denotes rules (.opt inner) s
  | ref {name : String} {rule : GrammarNode} {s : List Char}
      (found : rules.lookup name = some rule) (expanded : Denotes rules rule s) :
      Denotes rules (.ref name) s
  | hexByte (byte : UInt8) : Denotes rules (.hexByte byte) [Char.ofNat byte.toNat]

/-- The node expands, through references and sequences of one element, to a leaf. -/
inductive Plain (rules : Rules) : GrammarNode → Prop
  | lit (s : String) : Plain rules (.lit s)
  | charClass (chars : List (Char × Char)) (negated : Bool) : Plain rules (.charClass chars negated)
  | any : Plain rules .any
  | hexByte (byte : UInt8) : Plain rules (.hexByte byte)
  | seqNil : Plain rules (.seq [])
  | seqOne {node : GrammarNode} (only : Plain rules node) : Plain rules (.seq [node])
  | ref {name : String} {rule : GrammarNode} (found : rules.lookup name = some rule)
      (expanded : Plain rules rule) : Plain rules (.ref name)

/-- The node's fragment begins by reading a character. -/
inductive Opens (rules : Rules) : GrammarNode → Prop
  | lit {s : String} (some_ : s ≠ "") : Opens rules (.lit s)
  | charClass (chars : List (Char × Char)) (negated : Bool) : Opens rules (.charClass chars negated)
  | any : Opens rules .any
  | hexByte (byte : UInt8) : Opens rules (.hexByte byte)
  | seq {node : GrammarNode} {nodes : List GrammarNode} (first : Opens rules node) :
      Opens rules (.seq (node :: nodes))
  | ref {name : String} {rule : GrammarNode} (found : rules.lookup name = some rule)
      (expanded : Opens rules rule) : Opens rules (.ref name)

/-- The node expands to a repetition, an option or an alternation of nodes that begin by reading
a character. -/
inductive CopiesReaders (rules : Rules) : GrammarNode → Prop
  | star {inner : GrammarNode} (opens : Opens rules inner) : CopiesReaders rules (.star inner)
  | plus {inner : GrammarNode} (opens : Opens rules inner) : CopiesReaders rules (.plus inner)
  | opt {inner : GrammarNode} (opens : Opens rules inner) : CopiesReaders rules (.opt inner)
  | alt {node : GrammarNode} {nodes : List GrammarNode}
      (opens : ∀ branch ∈ node :: nodes, Opens rules branch) :
      CopiesReaders rules (.alt (node :: nodes))
  | seqOne {node : GrammarNode} (only : CopiesReaders rules node) : CopiesReaders rules (.seq [node])
  | ref {name : String} {rule : GrammarNode} (found : rules.lookup name = some rule)
      (expanded : CopiesReaders rules rule) : CopiesReaders rules (.ref name)

/-! ## References -/

theorem compileRef_ok {rules : Rules} {visited : List String} {name : String} {nfa : NFAGraph}
    (compiled : compileRef rules visited name = .ok nfa) {rule : GrammarNode}
    (found : rules.lookup name = some rule) :
    compileNode (compileRef rules (visited ++ [name])) rule = .ok nfa := by
  rw [compileRef] at compiled
  split at compiled
  next => cases compiled
  next fresh =>
    split at compiled
    next => cases compiled
    next rule' found' =>
      obtain rfl : rule = rule' := Option.some.inj (found.symm.trans found')
      exact compiled

theorem compileSeq_one {refs : String → Except String NFAGraph} {node : GrammarNode}
    {nfa : NFAGraph} (compiled : compileNode refs (.seq [node]) = .ok nfa) :
    compileNode refs node = .ok nfa := by
  rw [compileNode] at compiled
  obtain ⟨first, compiledFirst, rest⟩ := bind_ok compiled
  cases rest
  exact compiledFirst

/-! ## Plain grammars -/

theorem denotes_lit_iff {rules : Rules} {s : String} {chars : List Char} :
    Denotes rules (.lit s) chars ↔ chars = s.toList := by
  constructor
  · rintro ⟨⟩
    rfl
  · rintro rfl
    exact .lit s

/-- The fragment of a plain node accepts its language. -/
theorem acceptsFrom_of_plain {rules : Rules} {node : GrammarNode} (plain : Plain rules node)
    {visited : List String} {nfa : NFAGraph}
    (compiled : compileNode (compileRef rules visited) node = .ok nfa) (chars : List Char) :
    AcceptsFrom nfa.states 0 chars ↔ Denotes rules node chars := by
  induction plain generalizing visited nfa with
  | lit s =>
    cases compiled
    rw [acceptsFrom_compileLit, denotes_lit_iff]
  | charClass ranges negated =>
    cases compiled
    rw [compileCharClass, acceptsFrom_charFragment]
    constructor
    · rintro ⟨ch, member, rfl⟩
      exact .charClass member
    · rintro ⟨⟩
      exact ⟨_, ‹_›, rfl⟩
  | any =>
    rw [compileNode] at compiled
    rw [← Except.ok.inj compiled, compileAny, acceptsFrom_charFragment]
    constructor
    · rintro ⟨ch, member, rfl⟩
      exact .any member
    · rintro ⟨⟩
      exact ⟨_, ‹_›, rfl⟩
  | hexByte byte =>
    cases compiled
    rw [acceptsFrom_compileLit, String.toList_singleton]
    constructor
    · rintro rfl
      exact .hexByte byte
    · rintro ⟨⟩
      rfl
  | seqNil =>
    cases compiled
    rw [acceptsFrom_emptyFragment]
    constructor
    · rintro rfl
      exact .seqNil
    · rintro ⟨⟩
      rfl
  | @seqOne node only ih =>
    -- A sequence of one is the fragment of its node, with the empty rest behind it.
    rw [ih (compileSeq_one compiled)]
    constructor
    · intro denotes
      have one := Denotes.seqCons denotes (.seqNil : Denotes rules (.seq []) [])
      rwa [List.append_nil] at one
    · intro denotes
      cases denotes with
      | seqCons first rest =>
        cases rest
        rwa [List.append_nil]
  | @ref name rule found expanded ih =>
    rw [ih (compileRef_ok compiled found)]
    constructor
    · exact .ref found
    · intro denotes
      cases denotes with
      | ref found' denotes =>
        obtain rfl := Option.some.inj (found.symm.trans found')
        exact denotes

/-! ## Copied fragments -/

theorem reads_compileSeq {refs : String → Except String NFAGraph}
    (wfRefs : ∀ name nfa, refs name = .ok nfa → nfa.WellFormed) (nodes : List GrammarNode)
    {nfa nfa' : NFAGraph} (reads : nfa.Reads) (compiled : compileSeq refs nfa nodes = .ok nfa') :
    nfa'.Reads := by
  induction nodes generalizing nfa with
  | nil =>
    cases compiled
    exact reads
  | cons node nodes ih =>
    rw [compileSeq] at compiled
    obtain ⟨next, compiledNext, rest⟩ := bind_ok compiled
    exact ih (reads.joinSeq (wellFormed_compileNode wfRefs node compiledNext)) rest

theorem reads_of_opens {rules : Rules} {node : GrammarNode} (opens : Opens rules node)
    {visited : List String} {nfa : NFAGraph}
    (compiled : compileNode (compileRef rules visited) node = .ok nfa) : nfa.Reads := by
  induction opens generalizing visited nfa with
  | lit some_ =>
    cases compiled
    exact reads_compileLit some_
  | charClass ranges negated =>
    cases compiled
    exact reads_charFragment _
  | any =>
    rw [compileNode] at compiled
    rw [← Except.ok.inj compiled]
    exact reads_charFragment practicalUniverse
  | hexByte byte =>
    cases compiled
    refine reads_compileLit fun empty => ?_
    have letters := congrArg String.toList empty
    rw [String.toList_singleton] at letters
    cases letters
  | @seq node nodes first ih =>
    rw [compileNode] at compiled
    obtain ⟨fragment, compiledFirst, rest⟩ := bind_ok compiled
    exact reads_compileSeq (wellFormed_compileRef rules visited) nodes (ih compiledFirst) rest
  | @ref name rule found expanded ih => exact ih (compileRef_ok compiled found)

/-- A repetition, option or alternation of fragments that begin by reading a character has
unmoved targets. -/
theorem unmoved_of_copiesReaders {rules : Rules} {node : GrammarNode}
    (copies : CopiesReaders rules node) {visited : List String} {nfa : NFAGraph}
    (compiled : compileNode (compileRef rules visited) node = .ok nfa) : Unmoved nfa.states := by
  induction copies generalizing visited nfa with
  | star opens =>
    rw [compileNode] at compiled
    obtain ⟨fragment, compiledInner, rest⟩ := bind_ok compiled
    cases rest
    exact unmoved_starFragment (reads_of_opens opens compiledInner)
  | plus opens =>
    rw [compileNode] at compiled
    obtain ⟨fragment, compiledInner, rest⟩ := bind_ok compiled
    cases rest
    exact unmoved_plusFragment (reads_of_opens opens compiledInner)
  | opt opens =>
    rw [compileNode] at compiled
    obtain ⟨fragment, compiledInner, rest⟩ := bind_ok compiled
    cases rest
    exact unmoved_optFragment (reads_of_opens opens compiledInner)
  | @alt node nodes opens =>
    rw [compileNode] at compiled
    have branches (branches : List GrammarNode) (opens : ∀ branch ∈ branches, Opens rules branch)
        (graph : NFAGraph) (unmoved : Unmoved graph.states) (accept : graph.accept = 1)
        (compiled : compileAlt (compileRef rules visited) graph branches = .ok nfa) :
        Unmoved nfa.states := by
      induction branches generalizing graph with
      | nil =>
        cases compiled
        exact unmoved
      | cons branch branches ih =>
        rw [compileAlt] at compiled
        obtain ⟨fragment, compiledBranch, rest⟩ := bind_ok compiled
        have reads := reads_of_opens (opens branch List.mem_cons_self) compiledBranch
        obtain ⟨unmoved', accept'⟩ := unmoved_joinAlt unmoved accept reads
        exact ih (fun other member => opens other (List.mem_cons_of_mem _ member)) _ unmoved'
          accept' rest
    exact branches (node :: nodes) opens NFAGraph.new unmoved_new rfl compiled
  | seqOne only ih => exact ih (compileSeq_one compiled)
  | ref found expanded ih => exact ih (compileRef_ok compiled found)

/-! ## Compiled grammars -/

/-- Every compiled automaton accepts what the fragment of the root accepts. -/
theorem accepts_compile_iff {g : Grammar} {fsm : GrammarFSM} (compiled : g.compile = .ok fsm) :
    ∃ nfa, compileRef g.rules [] g.root = .ok nfa ∧
      ∀ text, fsm.Accepts text ↔ AcceptsFrom nfa.states 0 text.toList := by
  obtain ⟨nfa, root, rest⟩ := bind_ok compiled
  cases rest
  have wf := wellFormed_compileRef g.rules [] g.root root
  refine ⟨nfa, root, fun text => ?_⟩
  rw [wf.start]
  exact accepts_nfaToDfa wf.inRange (Nat.zero_lt_of_lt wf.accept) text

/-- Where the root expands to a leaf, the automaton accepts exactly its language. Where it expands
to copies of fragments that begin by reading a character, it accepts no text but the empty one. -/
theorem compile_language {g : Grammar} {fsm : GrammarFSM} (compiled : g.compile = .ok fsm) :
    (Plain g.rules (.ref g.root) →
        ∀ text, fsm.Accepts text ↔ Denotes g.rules (.ref g.root) text.toList) ∧
      (CopiesReaders g.rules (.ref g.root) → ∀ text, text ≠ "" → ¬ fsm.Accepts text) := by
  obtain ⟨nfa, root, accepts⟩ := accepts_compile_iff compiled
  refine ⟨fun plain text => ?_, fun copies text some_ => ?_⟩
  · rw [accepts]
    exact acceptsFrom_of_plain plain root text.toList
  · obtain ⟨ch, rest, letters⟩ := exists_letters some_
    rw [accepts, letters]
    exact (unmoved_of_copiesReaders copies root).not_acceptsFrom ch rest

def greeting : Grammar where
  rules := (AList.insert "root" (.seq [.ref "word"]) ∅).insert "word" (.lit "hello")
  root := "root"

theorem greeting_language : ∃ fsm, greeting.compile = .ok fsm ∧
    ∀ text, fsm.Accepts text ↔ Denotes greeting.rules (.ref "root") text.toList := by
  have compiles : greeting.compile.isOk = true := by decide +kernel
  cases compiled : greeting.compile with
  | error e =>
    rw [compiled] at compiles
    cases compiles
  | ok fsm =>
    refine ⟨fsm, rfl, (compile_language compiled).1 ?_⟩
    exact .ref rfl (.seqOne (.ref rfl (.lit "hello")))

def helloOrWorld : Grammar where
  rules := AList.insert "root" (.alt [.lit "hello", .lit "world"]) ∅
  root := "root"

theorem helloOrWorld_rejects_hello : ∃ fsm, helloOrWorld.compile = .ok fsm ∧
    ¬ fsm.Accepts "hello" ∧ Denotes helloOrWorld.rules (.ref "root") "hello".toList := by
  have rejects : (match helloOrWorld.compile with
      | .ok fsm => decide (¬ fsm.Accepts "hello")
      | .error _ => false) = true := by decide +kernel
  cases compiled : helloOrWorld.compile with
  | error e =>
    rw [compiled] at rejects
    cases rejects
  | ok fsm =>
    rw [compiled] at rejects
    exact ⟨fsm, rfl, of_decide_eq_true rejects, .ref rfl (.alt List.mem_cons_self (.lit "hello"))⟩

end TribunusCompute.Gbnf
