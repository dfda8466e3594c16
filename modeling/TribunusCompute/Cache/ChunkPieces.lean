import TribunusCompute.Cache.ChunkKv
import TribunusCompute.Library.Lists

/-!
# The length of chunks

Speaker and sentence tokens cut the stream wherever the piece is long enough. The
fallback against long pieces makes one more cut, after the last of these cuts only.
-/
namespace TribunusCompute.Cache

namespace ChunkKvCache

/-- Cut positions ascend inside the tokens, and no piece between them is longer than 128
tokens, the tail after the last one included. -/
structure SplitLaw (c : ChunkKvCache) (tokens : List UInt32) : Prop where
  ascending : (c.detectChunks tokens).Pairwise (· < ·)
  inside : ∀ b ∈ c.detectChunks tokens, 0 < b ∧ b ≤ tokens.length
  capped : (0 :: c.detectChunks tokens ++ [tokens.length]).IsChain
    fun lo hi => hi ≤ lo + maxFallbackTokens

/-- A piece that starts at `lo` may end before `hi`: its last token is a speaker boundary and at
least the third token of the piece, or ends a sentence and is at least the second one. -/
def MayEnd (c : ChunkKvCache) (tokens : List UInt32) (lo hi : ℕ) : Prop :=
  ∃ token, tokens[hi - 1]? = some token ∧
    (token ∈ c.speakerBoundaryTokens ∧ lo + 3 ≤ hi ∨ token ∈ c.sentenceEndTokens ∧ lo + 2 ≤ hi)

/-- The first position at which the piece may end. -/
def EndsAt (c : ChunkKvCache) (tokens : List UInt32) (lo hi : ℕ) : Prop :=
  c.MayEnd tokens lo hi ∧ ∀ mid < hi, ¬ c.MayEnd tokens lo mid

def PieceStart (c : ChunkKvCache) (tokens : List UInt32) (lo : ℕ) : Prop :=
  Relation.ReflTransGen (c.EndsAt tokens) 0 lo

/-- Each piece may end within 128 tokens; only the last one need not, if it has at most 256. -/
def EndsOften (c : ChunkKvCache) (tokens : List UInt32) : Prop :=
  ∀ lo, c.PieceStart tokens lo →
    (∃ hi ≤ lo + maxFallbackTokens, c.MayEnd tokens lo hi) ∨
      (∀ hi, ¬ c.MayEnd tokens lo hi) ∧ tokens.length ≤ lo + 2 * maxFallbackTokens

variable {c : ChunkKvCache} {tokens : List UInt32}

theorem not_mayEnd {lo hi : ℕ} (upto : hi ≤ lo + 1) : ¬ c.MayEnd tokens lo hi := by
  rintro ⟨-, -, ⟨-, gap⟩ | ⟨-, gap⟩⟩ <;> omega

theorem endsAt_unique : Relator.RightUnique (c.EndsAt tokens) := by
  rintro lo hi hi' ⟨ends, first⟩ ⟨ends', first'⟩
  apply le_antisymm
  · exact Nat.le_of_not_lt fun before => first hi' before ends'
  · exact Nat.le_of_not_lt fun before => first' hi before ends

theorem exists_endsAt {lo hi : ℕ} (ends : c.MayEnd tokens lo hi) :
    ∃ first ≤ hi, c.EndsAt tokens lo first := by
  induction hi using Nat.strong_induction_on with
  | _ hi ih =>
    by_cases earlier : ∃ mid < hi, c.MayEnd tokens lo mid
    · obtain ⟨mid, before, ends⟩ := earlier
      obtain ⟨first, upto, found⟩ := ih mid before ends
      exact ⟨first, upto.trans before.le, found⟩
    · exact ⟨hi, le_rfl, ends, fun mid before sooner => earlier ⟨mid, before, sooner⟩⟩

/-- The scan cuts at the first position at which the piece may end, from cut to cut. -/
theorem detectFrom_leads (front rest : List UInt32) {lo : ℕ} (behind : lo ≤ front.length)
    (none_ : ∀ hi ≤ front.length, ¬ c.MayEnd (front ++ rest) lo hi) :
    Chains.LeadsThrough (c.EndsAt (front ++ rest)) lo (c.detectFrom front.length lo rest).1 ∧
      (lo :: (c.detectFrom front.length lo rest).1).getLast? =
        some (c.detectFrom front.length lo rest).2 := by
  induction rest generalizing front lo with
  | nil =>
    refine ⟨?_, rfl⟩
    rintro hi ⟨ends, -⟩
    refine none_ hi ?_ ends
    obtain ⟨token, found, -⟩ := ends
    have := (List.getElem?_eq_some_iff.mp found).1
    rw [List.append_nil] at this
    omega
  | cons token rest ih =>
    have here (token' : UInt32) :
        (front ++ token :: rest)[front.length + 1 - 1]? = some token' ↔ token = token' := by
      simp
    have split_ : front ++ token :: rest = (front ++ [token]) ++ rest := by simp
    have ih' := @ih (front ++ [token])
    rw [← split_, List.length_append, List.length_singleton] at ih'
    rw [detectFrom]
    dsimp only
    split
    next cut =>
      obtain ⟨leads, last⟩ := ih' le_rfl fun hi upto => not_mayEnd (upto.trans (Nat.le_succ _))
      refine ⟨⟨⟨⟨token, (here token).mpr rfl, ?_⟩, fun mid before => ?_⟩, leads⟩, ?_⟩
      · rcases cut with ⟨speaker, gap⟩ | ⟨sentence, gap⟩
        · exact .inl ⟨speaker, by omega⟩
        · exact .inr ⟨sentence, by omega⟩
      · exact none_ mid (Nat.le_of_lt_succ before)
      · rw [List.getLast?_cons_cons]
        exact last
    next noCut =>
      -- A token at which the piece may end would have cut it.
      refine ih' (behind.trans (Nat.le_succ _)) fun hi upto ends => ?_
      rcases Nat.le_succ_iff.mp upto with before | rfl
      · exact none_ hi before ends
      · obtain ⟨token', found, long⟩ := ends
        obtain rfl := (here token').mp found
        apply noCut
        rcases long with ⟨speaker, gap⟩ | ⟨sentence, gap⟩
        · exact .inl ⟨speaker, by omega⟩
        · exact .inr ⟨sentence, by omega⟩

theorem detectFrom_start (c : ChunkKvCache) (tokens : List UInt32) :
    Chains.LeadsThrough (c.EndsAt tokens) 0 (c.detectFrom 0 0 tokens).1 ∧
      (0 :: (c.detectFrom 0 0 tokens).1).getLast? = some (c.detectFrom 0 0 tokens).2 :=
  detectFrom_leads [] tokens le_rfl fun _ upto => not_mayEnd (upto.trans (Nat.le_succ 0))

/-- The boundaries are those of the scan, and one more where the rest after them is long. -/
theorem detectChunks_eq (c : ChunkKvCache) (tokens : List UInt32) :
    c.detectChunks tokens = (c.detectFrom 0 0 tokens).1 ++
      if maxFallbackTokens < tokens.length - (c.detectFrom 0 0 tokens).2 then
        [(c.detectFrom 0 0 tokens).2 + maxFallbackTokens]
      else [] := by
  rw [detectChunks]
  cases tokens with
  | nil => rfl
  | cons token tokens =>
    obtain ⟨-, ends⟩ := c.detectFrom_start (token :: tokens)
    generalize c.detectFrom 0 0 (token :: tokens) = scan at ends ⊢
    obtain ⟨cuts, last⟩ := scan
    rw [if_neg (by simp)]
    dsimp only at ends ⊢
    by_cases long : maxFallbackTokens < (token :: tokens).length - last
    · rw [if_pos long, if_pos long, if_neg (by simp)]
    · -- Where the scan finds nothing, the rest is the whole slice: the last branch is never taken.
      rw [if_neg long, if_neg long, List.append_nil, if_neg]
      rintro ⟨none_, whole⟩
      rw [List.isEmpty_iff.mp none_] at ends
      obtain rfl : 0 = last := Option.some.inj ends
      exact long whole

/-- The cap on the rest of the pieces, from one cut of the scan to the end. -/
theorem capped_iff {lo last : ℕ} {cuts : List ℕ}
    (leads : Chains.LeadsThrough (c.EndsAt tokens) lo cuts)
    (ends : (lo :: cuts).getLast? = some last) :
    ((lo :: cuts).IsChain (fun lo hi => hi ≤ lo + maxFallbackTokens) ∧
        tokens.length ≤ last + 2 * maxFallbackTokens) ↔
      ∀ lo' ∈ lo :: cuts, (∃ hi ≤ lo' + maxFallbackTokens, c.MayEnd tokens lo' hi) ∨
        (∀ hi, ¬ c.MayEnd tokens lo' hi) ∧ tokens.length ≤ lo' + 2 * maxFallbackTokens := by
  induction cuts generalizing lo with
  | nil =>
    obtain rfl : lo = last := Option.some.inj ends
    have never : ∀ hi, ¬ c.MayEnd tokens lo hi := by
      intro hi ends
      obtain ⟨first, -, found⟩ := exists_endsAt ends
      exact leads first found
    simp [never]
  | cons cut cuts ih =>
    -- The next cut is the first place, so it is near if any place is.
    have here : ((∃ hi ≤ lo + maxFallbackTokens, c.MayEnd tokens lo hi) ∨
        (∀ hi, ¬ c.MayEnd tokens lo hi) ∧ tokens.length ≤ lo + 2 * maxFallbackTokens) ↔
        cut ≤ lo + maxFallbackTokens := by
      constructor
      · rintro (⟨hi, near, ends⟩ | ⟨never, -⟩)
        · exact (Nat.le_of_not_lt fun before => leads.1.2 hi before ends).trans near
        · exact absurd leads.1.1 (never cut)
      · exact fun near => .inl ⟨cut, near, leads.1.1⟩
    rw [List.isChain_cons_cons, List.forall_mem_cons, here,
      ← ih leads.2 (List.getLast?_cons_cons ▸ ends), and_assoc]

/-- The law holds exactly where pieces may end often enough. -/
theorem splitLaw_iff (c : ChunkKvCache) (tokens : List UInt32) :
    c.SplitLaw tokens ↔ c.EndsOften tokens := by
  obtain ⟨leads, last⟩ := c.detectFrom_start tokens
  have capped : (0 :: c.detectChunks tokens ++ [tokens.length]).IsChain
      (fun lo hi => hi ≤ lo + maxFallbackTokens) ↔ c.EndsOften tokens := by
    simp only [EndsOften, PieceStart, Chains.reached_iff endsAt_unique leads]
    rw [← capped_iff leads last, detectChunks_eq, List.cons_append, List.append_assoc,
      ← List.cons_append, Chains.isChain_append_iff last]
    -- The forced cut leaves a tail of at most 128 tokens if the rest has at most 256.
    refine and_congr_right fun _ => ?_
    unfold maxFallbackTokens
    split
    next => simp
    next => simp; omega
  constructor
  · exact fun law => capped.mp law.capped
  · intro often
    obtain ⟨ascending, inside⟩ := c.detectChunks_spec tokens
    exact ⟨ascending, inside, capped.mpr often⟩

/-- A sentence of 300 tokens stays in one piece. -/
theorem long_sentence_unsplit :
    ¬ ((new 10 (2 ^ 20)).setBoundaryTokens [9] []).SplitLaw (List.replicate 299 1 ++ [9]) := by
  intro law
  exact absurd law.capped (by decide +kernel)

end ChunkKvCache

end TribunusCompute.Cache
