import TribunusCompute.KvCache.Compressed

/-!
# Runs of the compressed cache

The cache is a log of tokens: an append adds one, a rollback goes back to the log as of the last
commit, and a window reads every token as quantizing and dequantizing it alone would give it.
-/
namespace TribunusCompute.KvCache

open Outcome TurboQuant TurboQuantKvCache

variable {ops : FloatOps}

/-! ## Quantized keys are never empty -/

section Bytes

variable {data : List UInt32} {bits : ℕ} {buf : List UInt8}

theorem polar_ne_nil (ok : quantizePolarStoredScale ops data bits = .ok buf) : buf ≠ [] := by
  obtain ⟨-, -, ok⟩ := bind_ok_iff.mp ok
  obtain ⟨levels, -, ok⟩ := bind_ok_iff.mp ok
  obtain ⟨packed, -, ok⟩ := bind_ok_iff.mp ok
  obtain rfl := pure_ok_iff.mp ok
  exact List.append_ne_nil_of_right_ne_nil _ (List.ne_nil_of_length_pos (by simp))

theorem product_ne_nil (ok : quantizeProduct ops data bits = .ok buf) : buf ≠ [] := by
  obtain ⟨above, -, ok⟩ := bind_ok_iff.mp ok
  obtain ⟨levelsA, -, ok⟩ := bind_ok_iff.mp ok
  obtain ⟨levelsB, -, ok⟩ := bind_ok_iff.mp ok
  obtain ⟨bitsPerVal, -, ok⟩ := bind_ok_iff.mp ok
  obtain ⟨packed, -, ok⟩ := bind_ok_iff.mp ok
  obtain rfl := pure_ok_iff.mp ok
  exact List.append_ne_nil_of_right_ne_nil _ (List.ne_nil_of_length_pos (by simp))

theorem split_ne_nil {headDim : ℕ} {both : List UInt8 × List UInt8}
    (ok : quantizeSplit ops data headDim bits = .ok both) : both.1 ≠ [] := by
  obtain ⟨-, -, ok⟩ := bind_ok_iff.mp ok
  obtain ⟨first, -, ok⟩ := bind_ok_iff.mp ok
  obtain ⟨second, -, ok⟩ := bind_ok_iff.mp ok
  obtain rfl := pure_ok_iff.mp ok
  exact List.append_ne_nil_of_right_ne_nil _ (List.ne_nil_of_length_pos (by simp))

theorem polarprod_ne_nil (ok : quantizePolarprod ops data bits = .ok buf) : buf ≠ [] := by
  obtain ⟨polar, -, ok⟩ := bind_ok_iff.mp ok
  obtain ⟨recon, -, ok⟩ := bind_ok_iff.mp ok
  obtain ⟨prod, -, ok⟩ := bind_ok_iff.mp ok
  obtain rfl := pure_ok_iff.mp ok
  exact List.append_ne_nil_of_right_ne_nil _ (List.ne_nil_of_length_pos (by simp))

theorem mse_ne_nil {stateBits : ℕ} (ok : quantizeMse ops data bits stateBits = .ok buf) :
    buf ≠ [] := by
  obtain ⟨numStates, -, ok⟩ := bind_ok_iff.mp ok
  obtain ⟨quantLevels, -, ok⟩ := bind_ok_iff.mp ok
  obtain ⟨bitsPerElem, -, ok⟩ := bind_ok_iff.mp ok
  obtain ⟨packed, -, ok⟩ := bind_ok_iff.mp ok
  obtain rfl := pure_ok_iff.mp ok
  exact List.append_ne_nil_of_right_ne_nil _ (List.ne_nil_of_length_pos (by simp))

theorem hadamard_ne_nil (ok : quantizePolarHadamard ops data bits = .ok buf) : buf ≠ [] := by
  obtain ⟨transformed, -, ok⟩ := bind_ok_iff.mp ok
  exact polar_ne_nil ok

theorem first_ne_nil {headDim : ℕ} (ok : Prod.fst <$> quantizeSplit ops data headDim bits = .ok buf) :
    buf ≠ [] := by
  cases split : quantizeSplit ops data headDim bits with
  | error fault =>
    rw [split] at ok
    cases ok
  | ok both =>
    rw [split] at ok
    cases ok
    exact split_ne_nil split

theorem quantizeData_ne_nil {mode : KvQuantMode} {headDim : ℕ}
    (ok : quantizeData ops mode headDim data = .ok buf) : buf ≠ [] := by
  cases mode with
  | polar _ => exact polar_ne_nil ok
  | prod _ => exact product_ne_nil ok
  | split _ => exact first_ne_nil ok
  | polarProd _ => exact polarprod_ne_nil ok
  | mse _ _ => exact mse_ne_nil ok
  | polarHadamard _ => exact hadamard_ne_nil ok
  | turboQuant3 _ _ => exact hadamard_ne_nil ok

end Bytes

/-! ## Tokens -/

namespace Token

/-- The slot of a token. -/
def quantizeState (ops : FloatOps) (mode : KvQuantMode) (token : Token) :
    Outcome TurboQuantState :=
  match token.asymMode with
  | none => TurboQuantKvCache.quantizeState ops mode token.keys token.values
  | some asymMode => quantizeStateAsymmetric ops asymMode token.keys token.values

def quantize (ops : FloatOps) (token : Token) (tq : TurboQuantKvCache) (slot : ℕ) :
    Outcome (Except TurboQuantError Unit × TurboQuantKvCache) :=
  match token.asymMode with
  | none => tq.quantize ops slot token.keys token.values
  | some asymMode => tq.quantizeAsymmetric ops slot token.keys token.values asymMode

/-- A token quantized into a cache of its own and dequantized from there. -/
def reread (ops : FloatOps) (mode : KvQuantMode) (token : Token) :
    Outcome (List UInt32 × List UInt32) := do
  let (_, tq) ← token.quantize ops (.new mode 1 1) 0
  let result ← tq.dequantize ops 0
  match result with
  | .ok both => return both
  | .error _ => panics

variable {token : Token} {mode : KvQuantMode} {st : TurboQuantState} {tq : TurboQuantKvCache}
  {slot : ℕ}

theorem keys_ne_nil (ok : token.quantizeState ops mode = .ok st) : st.keys ≠ [] := by
  unfold quantizeState at ok
  cases own : token.asymMode with
  | none =>
    rw [own] at ok
    exact quantizeData_ne_nil (quantizeState_records ok).keyBytes
  | some asymMode =>
    rw [own] at ok
    obtain ⟨sum, -, ok⟩ := bind_ok_iff.mp ok
    obtain ⟨keyBuf, keysOk, ok⟩ := bind_ok_iff.mp ok
    obtain ⟨valuesQuantized, -, ok⟩ := bind_ok_iff.mp ok
    obtain rfl := pure_ok_iff.mp ok
    cases asymMode with
    | keyLightValueHeavy _ _ => exact hadamard_ne_nil keysOk
    | keyPolarValueProd _ _ => exact polar_ne_nil keysOk
    | keySplitValuePolar _ _ => exact first_ne_nil keysOk

theorem asymMode_of_quantizeState (ok : token.quantizeState ops mode = .ok st) :
    st.asymMode = token.asymMode := by
  unfold quantizeState at ok
  cases own : token.asymMode with
  | none =>
    rw [own] at ok
    exact (quantizeState_records ok).symmetric
  | some asymMode =>
    rw [own] at ok
    obtain ⟨sum, -, ok⟩ := bind_ok_iff.mp ok
    obtain ⟨keyBuf, -, ok⟩ := bind_ok_iff.mp ok
    obtain ⟨valuesQuantized, -, ok⟩ := bind_ok_iff.mp ok
    obtain rfl := pure_ok_iff.mp ok
    rfl

theorem quantize_cases {result : Except TurboQuantError Unit} {tq' : TurboQuantKvCache}
    (ok : token.quantize ops tq slot = .ok (result, tq')) :
    (∃ error, result = .error error ∧ tq' = tq) ∨
      result = .ok () ∧ ∃ inside filler st, token.quantizeState ops tq.quantMode = .ok st ∧
        tq' = tq.store slot inside filler st := by
  unfold quantize at ok
  cases own : token.asymMode with
  | none =>
    rw [own] at ok
    by_cases inside : slot < tq.capacity
    · simp only [quantize_inside inside] at ok
      obtain ⟨st, quantized, done⟩ := bind_ok_iff.mp ok
      obtain ⟨rfl, rfl⟩ := Prod.mk.inj (pure_ok_iff.mp done)
      refine .inr ⟨rfl, inside, .empty tq.quantMode.bits, st, ?_, rfl⟩
      rw [quantizeState, own]
      exact quantized
    · unfold TurboQuantKvCache.quantize at ok
      rw [dif_neg inside] at ok
      obtain ⟨rfl, rfl⟩ := Prod.mk.inj (pure_ok_iff.mp ok)
      exact .inl ⟨_, rfl, rfl⟩
  | some asymMode =>
    rw [own] at ok
    unfold quantizeAsymmetric at ok
    by_cases inside : slot < tq.capacity
    · simp only [dif_pos inside] at ok
      obtain ⟨st, quantized, done⟩ := bind_ok_iff.mp ok
      obtain ⟨rfl, rfl⟩ := Prod.mk.inj (pure_ok_iff.mp done)
      refine .inr ⟨rfl, inside, .empty 0, st, ?_, rfl⟩
      rw [quantizeState, own]
      exact quantized
    · simp only [dif_neg inside] at ok
      obtain ⟨rfl, rfl⟩ := Prod.mk.inj (pure_ok_iff.mp ok)
      exact .inl ⟨_, rfl, rfl⟩

/-- A token in its slot is dequantized in its own mode, or else in that of the cache. -/
def dequantizeState (ops : FloatOps) (mode : KvQuantMode) (token : Token) (st : TurboQuantState) :
    Outcome (List UInt32 × List UInt32) :=
  match token.asymMode with
  | none => TurboQuantKvCache.dequantizeState ops mode st
  | some asymMode => dequantizeStateAsymmetric ops asymMode st

theorem dequantize_slot (quantized : token.quantizeState ops tq.quantMode = .ok st)
    (here : tq.state[slot]? = some st) :
    tq.dequantize ops slot = Except.ok <$> token.dequantizeState ops tq.quantMode st := by
  have used := keys_ne_nil quantized
  have own := asymMode_of_quantizeState quantized
  unfold TurboQuantKvCache.dequantize dequantizeAsymmetric dequantizeState
  rw [here]
  cases mode : token.asymMode with
  | none => simp only [if_neg used, own, mode, Option.isSome_none, Bool.false_eq_true, if_false]
  | some asymMode => simp only [if_neg used, own, mode, Option.isSome_some, if_true]

theorem quantize_ok (inside : slot < tq.capacity)
    (quantized : token.quantizeState ops tq.quantMode = .ok st) :
    ∃ filler, token.quantize ops tq slot = .ok (.ok (), tq.store slot inside filler st) := by
  unfold quantize
  unfold quantizeState at quantized
  cases own : token.asymMode with
  | none =>
    rw [own] at quantized
    simp only [quantize_inside inside]
    exact ⟨_, bind_ok_iff.mpr ⟨st, quantized, rfl⟩⟩
  | some asymMode =>
    rw [own] at quantized
    unfold quantizeAsymmetric
    simp only [dif_pos inside]
    exact ⟨_, bind_ok_iff.mpr ⟨st, quantized, rfl⟩⟩

/-- A token's slot reads as the token does in a cache of its own. -/
theorem reread_eq (quantized : token.quantizeState ops mode = .ok st) :
    token.reread ops mode = token.dequantizeState ops mode st := by
  have room : 0 < (TurboQuantKvCache.new mode 1 1).capacity := Nat.one_pos
  obtain ⟨filler, stored⟩ := quantize_ok room quantized
  unfold reread
  rw [stored]
  show ((TurboQuantKvCache.store _ 0 room filler st).dequantize ops 0 >>= _) = _
  rw [dequantize_slot quantized (store_at room)]
  show ((Except.ok <$> token.dequantizeState ops mode st) >>= _) = _
  cases token.dequantizeState ops mode st with
  | error fault => rfl
  | ok both => rfl

end Token

/-! ## Windows -/

def readTokens (ops : FloatOps) (mode : KvQuantMode) (log : List Token) (start stop : ℕ) :
    Outcome (Except String (List UInt32 × List UInt32)) := do
  let pairs ← ((log.take stop).drop start).mapM (Token.reread ops mode)
  return .ok (pairs.flatMap Prod.fst, pairs.flatMap Prod.snd)

namespace CompressedKvCache

structure Represents (ops : FloatOps) (mode : KvQuantMode) (cache : CompressedKvCache)
    (log : List Token) : Prop where
  quantMode : cache.tq.quantMode = mode
  length : cache.slots.length = log.length
  seqLen : cache.seqLen = log.length
  short : log.length < 2 ^ 32
  slot : ∀ (i : ℕ) (slot : CompressedKvSlot), cache.slots[i]? = some slot →
    slot.kvOffset.toNat = i ∧ slot.numTokens = 1
  stored : ∀ (i : ℕ) (token : Token), log[i]? = some token →
    ∃ st, token.quantizeState ops mode = .ok st ∧ cache.tq.state[i]? = some st

variable {mode : KvQuantMode} {cache : CompressedKvCache} {log : List Token}

theorem Represents.decompressSlot (represents : Represents ops mode cache log) {i : ℕ}
    {token : Token} (here : log[i]? = some token) :
    cache.decompressSlot ops i = Except.ok <$> token.reread ops mode := by
  obtain ⟨st, quantized, there⟩ := represents.stored i token here
  have quantized' := represents.quantMode.symm ▸ quantized
  unfold CompressedKvCache.decompressSlot
  rw [Token.dequantize_slot quantized' there, represents.quantMode, Token.reread_eq quantized]
  cases token.dequantizeState ops mode st with
  | error fault => rfl
  | ok both => rfl

theorem sliceRange_whole (data : List UInt32) : sliceRange data 0 data.length = .ok data := by
  unfold sliceRange
  refine bind_ok_iff.mpr ⟨(), assert_ok_iff.mpr ⟨Nat.zero_le _, Nat.le_refl _⟩, ?_⟩
  rw [List.drop_zero, Nat.sub_zero, List.take_length]
  rfl

/-- Reading the slots from one position on gives the tokens of the window from there on. -/
theorem Represents.readSlots (represents : Represents ops mode cache log) (start stop idx : ℕ)
    (read : List UInt32 × List UInt32) :
    readSlots ops cache start stop idx (cache.slots.drop idx) read = (do
      let pairs ← (((log.drop idx).take (stop - idx)).drop (start - idx)).mapM
        (Token.reread ops mode)
      return .ok (read.1 ++ pairs.flatMap Prod.fst, read.2 ++ pairs.flatMap Prod.snd)) := by
  have length := represents.length
  induction rest : log.length - idx generalizing idx read with
  | zero =>
    have slotsRead : cache.slots.drop idx = [] := List.drop_eq_nil_of_le (by omega)
    have tokensRead : log.drop idx = [] := List.drop_eq_nil_of_le (by omega)
    rw [slotsRead, tokensRead]
    simp [CompressedKvCache.readSlots]
  | succ rest ih =>
    have inLog : idx < log.length := by omega
    have inSlots : idx < cache.slots.length := by omega
    have later := fun read => ih (idx + 1) read (by omega)
    rw [List.drop_eq_getElem_cons inLog, List.drop_eq_getElem_cons inSlots]
    obtain ⟨offset, single⟩ := represents.slot idx _ (List.getElem?_eq_getElem inSlots)
    have short := represents.short
    unfold CompressedKvCache.readSlots
    rw [offset, single]
    have ends : fit 32 (idx + 1 % 2 ^ 32) = .ok (idx + 1) := fit_ok_iff.mpr ⟨by omega, rfl⟩
    dsimp only
    rw [ends]
    show (if idx + 1 ≤ start ∨ idx ≥ stop then _ else _) = _
    by_cases outside : idx + 1 ≤ start ∨ idx ≥ stop
    · rw [if_pos outside, later]
      -- the window is the same without the token
      have same : ((log[idx] :: log.drop (idx + 1)).take (stop - idx)).drop (start - idx) =
          ((log.drop (idx + 1)).take (stop - (idx + 1))).drop (start - (idx + 1)) := by
        rcases Nat.lt_or_ge idx stop with inside | beyond
        · obtain ⟨stopLeft, stops⟩ : ∃ left, stop - idx = left + 1 := ⟨stop - idx - 1, by omega⟩
          obtain ⟨startLeft, starts⟩ : ∃ left, start - idx = left + 1 := ⟨start - idx - 1, by omega⟩
          have stops' : stop - (idx + 1) = stopLeft := by omega
          have starts' : start - (idx + 1) = startLeft := by omega
          rw [stops, starts, stops', starts', List.take_succ_cons, List.drop_succ_cons]
        · have none : stop - idx = 0 := by omega
          have none' : stop - (idx + 1) = 0 := by omega
          rw [none, none', List.take_zero, List.take_zero, List.drop_nil, List.drop_nil]
      rw [same]
    · rw [if_neg outside]
      have inside : start ≤ idx ∧ idx < stop := by omega
      obtain ⟨stopLeft, stops⟩ : ∃ left, stop - idx = left + 1 := ⟨stop - idx - 1, by omega⟩
      have stops' : stop - (idx + 1) = stopLeft := by omega
      have starts : start - idx = 0 := by omega
      have starts' : start - (idx + 1) = 0 := by omega
      have first : (if start > idx then start - idx else 0) = 0 := if_neg (by omega)
      have last : (if stop < idx + 1 then stop - idx else 1) = 1 := if_neg (by omega)
      rw [stops', starts'] at later
      rw [first, last, stops, starts, List.take_succ_cons, List.drop_zero, List.mapM_cons,
        represents.decompressSlot (List.getElem?_eq_getElem inLog)]
      cases log[idx].reread ops mode with
      | error fault => rfl
      | ok both =>
        have wholeKeys : sliceRange both.1 (0 * (both.1.length / 1)) (1 * (both.1.length / 1)) =
            .ok both.1 := by
          rw [Nat.div_one, Nat.zero_mul, Nat.one_mul, sliceRange_whole]
        have wholeValues : sliceRange both.2 (0 * (both.2.length / 1)) (1 * (both.2.length / 1)) =
            .ok both.2 := by
          rw [Nat.div_one, Nat.zero_mul, Nat.one_mul, sliceRange_whole]
        show (do
          let keys ← sliceRange both.1 (0 * (both.1.length / 1)) (1 * (both.1.length / 1))
          let values ← sliceRange both.2 (0 * (both.2.length / 1)) (1 * (both.2.length / 1))
          CompressedKvCache.readSlots ops cache start stop (idx + 1) (cache.slots.drop (idx + 1))
            (read.1 ++ keys, read.2 ++ values)) = _
        rw [wholeKeys, wholeValues]
        show CompressedKvCache.readSlots ops cache start stop (idx + 1) (cache.slots.drop (idx + 1))
          (read.1 ++ both.1, read.2 ++ both.2) = _
        rw [later, List.drop_zero]
        cases ((log.drop (idx + 1)).take stopLeft).mapM (Token.reread ops mode) with
        | error fault => rfl
        | ok pairs =>
          show Except.ok (Except.ok _) = Except.ok (Except.ok _)
          rw [List.append_assoc, List.append_assoc]
          rfl

theorem Represents.readWindow (represents : Represents ops mode cache log) (start stop : ℕ) :
    cache.readWindow ops start stop = readTokens ops mode log start stop := by
  unfold CompressedKvCache.readWindow readTokens
  split
  next nothing =>
    have none : (log.take stop).drop start = [] := by
      rcases nothing with reversed | empty
      · apply List.drop_eq_nil_of_le
        exact Nat.le_trans (List.length_take_le _ _) reversed
      · have length := represents.length
        rw [empty] at length
        rw [List.length_eq_zero_iff.mp length.symm, List.take_nil, List.drop_nil]
    rw [none]
    rfl
  next =>
    have whole := represents.readSlots start stop 0 ([], [])
    rw [List.drop_zero] at whole
    rw [whole]
    simp

/-! ## Steps -/

theorem represents_new (ops : FloatOps) (mode : KvQuantMode) (groupSize numSlots : ℕ) :
    Represents ops mode (new mode groupSize numSlots) [] where
  quantMode := rfl
  length := rfl
  seqLen := rfl
  short := by decide
  slot i slot here := by simp [new] at here
  stored i token here := by simp at here

theorem appendToken_eq (ops : FloatOps) (cache : CompressedKvCache) (token : Token) :
    ∃ call, cache.appendToken ops token =
      cache.appendQuantized (UInt32.ofNat cache.seqLen) call (token.quantize ops cache.tq) := by
  unfold appendToken Token.quantize
  cases token.asymMode with
  | none => exact ⟨"quantize", rfl⟩
  | some asymMode => exact ⟨"quantize_asymmetric", rfl⟩

/-- The cache with the slot of one more token. -/
def pushed (cache : CompressedKvCache) (room : cache.slots.length < cache.tq.capacity)
    (filler st : TurboQuantState) : CompressedKvCache where
  tq := cache.tq.store cache.slots.length room filler st
  slots := cache.slots ++ [{
    compressedKeys := st.keys
    compressedValues := st.values
    qjlCorrection := none
    kvOffset := UInt32.ofNat cache.seqLen
    numTokens := 1 }]
  committedLen := cache.committedLen
  seqLen := cache.seqLen + 1

theorem appendToken_ok (cache : CompressedKvCache) (token : Token) {st : TurboQuantState}
    (room : cache.slots.length < cache.tq.capacity)
    (quantized : token.quantizeState ops cache.tq.quantMode = .ok st)
    (short : cache.seqLen + 1 < 2 ^ 32) :
    ∃ filler, cache.appendToken ops token = .ok (.ok (), cache.pushed room filler st) := by
  obtain ⟨call, appended⟩ := appendToken_eq ops cache token
  obtain ⟨filler, called⟩ := Token.quantize_ok room quantized
  refine ⟨filler, ?_⟩
  rw [appended]
  refine bind_ok_iff.mpr ⟨_, called, ?_⟩
  simp only [store_at room]
  exact bind_ok_iff.mpr ⟨_, fit_ok_iff.mpr ⟨short, rfl⟩, rfl⟩

theorem appendToken_cases (represents : Represents ops mode cache log) {token : Token}
    {result : Except String Unit} {cache' : CompressedKvCache}
    (ok : cache.appendToken ops token = .ok (result, cache')) :
    (∃ error, result = .error error ∧ cache' = cache) ∨
      result = .ok () ∧ Represents ops mode cache' (log ++ [token]) ∧
        cache'.committedLen = cache.committedLen := by
  obtain ⟨call, appended⟩ := appendToken_eq ops cache token
  rw [appended] at ok
  obtain ⟨⟨quantized, tq⟩, called, ok⟩ := bind_ok_iff.mp ok
  rcases Token.quantize_cases called with ⟨error, rfl, rfl⟩ | ⟨rfl, inside, filler, st, state, rfl⟩
  -- a token that cannot be quantized is refused before anything is stored
  · obtain ⟨rfl, rfl⟩ := Prod.mk.inj (pure_ok_iff.mp ok)
    exact .inl ⟨_, rfl, rfl⟩
  · simp only [store_at inside] at ok
    obtain ⟨seqLen, counted, ok⟩ := bind_ok_iff.mp ok
    obtain ⟨rfl, rfl⟩ := Prod.mk.inj (pure_ok_iff.mp ok)
    obtain ⟨fits, rfl⟩ := fit_ok_iff.mp counted
    refine .inr ⟨rfl, ?_, rfl⟩
    have length := represents.length
    have seqLen := represents.seqLen
    constructor
    · exact represents.quantMode
    · simp [length]
    · simp [seqLen]
    · rw [List.length_append, List.length_singleton]
      omega
    · -- The slot of the new token has the position that 32 bits can still count.
      intro i slot here
      rcases Nat.lt_or_ge i cache.slots.length with before | behind
      · rw [List.getElem?_append_left before] at here
        exact represents.slot i slot here
      · rw [List.getElem?_append_right behind, List.getElem?_singleton] at here
        split at here
        next last =>
          obtain rfl := Option.some.inj here
          refine ⟨?_, rfl⟩
          show (UInt32.ofNat cache.seqLen).toNat = i
          rw [UInt32.toNat_ofNat_of_lt' (show cache.seqLen < 2 ^ 32 by omega)]
          omega
        next => cases here
    · -- The store writes behind the states of the earlier tokens.
      intro i token' here
      rcases Nat.lt_or_ge i log.length with before | behind
      · rw [List.getElem?_append_left before] at here
        obtain ⟨st', state', there⟩ := represents.stored i token' here
        refine ⟨st', state', ?_⟩
        have present : i < cache.tq.state.length := (List.getElem?_eq_some_iff.mp there).1
        exact (store_below inside (by omega) present).trans there
      · rw [List.getElem?_append_right behind, List.getElem?_singleton] at here
        split at here
        next last =>
          obtain rfl := Option.some.inj here
          have place : i = cache.slots.length := by omega
          rw [place]
          exact ⟨st, represents.quantMode ▸ state, store_at inside⟩
        next => cases here

theorem getElem?_of_take {α : Type} {l : List α} {n i : ℕ} {a : α}
    (here : (l.take n)[i]? = some a) : l[i]? = some a := by
  rw [List.getElem?_take] at here
  split at here
  · exact here
  · cases here

theorem Represents.rollback (represents : Represents ops mode cache log)
    (committed : cache.committedLen ≤ log.length) :
    Represents ops mode cache.rollback (log.take cache.committedLen) := by
  have length := represents.length
  have seqLen := represents.seqLen
  unfold CompressedKvCache.rollback
  split
  next same =>
    have whole : log.take cache.committedLen = log := List.take_of_length_le (by omega)
    rw [whole]
    exact represents
  next =>
    constructor
    · exact represents.quantMode
    · rw [List.length_take, List.length_take, length]
    · rw [List.length_take, Nat.min_eq_left committed]
    · rw [List.length_take]
      exact Nat.lt_of_le_of_lt (Nat.min_le_right _ _) represents.short
    · intro i slot here
      exact represents.slot i slot (getElem?_of_take here)
    · intro i token here
      exact represents.stored i token (getElem?_of_take here)

/-! ## Runs -/

/-- The caches that calls lead to, with the tokens appended and not rolled back, and with the
cache and the tokens as of the last commit. -/
inductive Run (ops : FloatOps) (mode : KvQuantMode) (groupSize numSlots : ℕ) :
    CompressedKvCache → List Token → CompressedKvCache → List Token → Prop
  | new : Run ops mode groupSize numSlots (new mode groupSize numSlots) []
      (new mode groupSize numSlots) []
  | append {cache cache' saved : CompressedKvCache} {log savedLog : List Token} {token : Token}
      (before : Run ops mode groupSize numSlots cache log saved savedLog)
      (ok : cache.appendToken ops token = .ok (.ok (), cache')) :
      Run ops mode groupSize numSlots cache' (log ++ [token]) saved savedLog
  | rejected {cache cache' saved : CompressedKvCache} {log savedLog : List Token} {token : Token}
      {error : String} (before : Run ops mode groupSize numSlots cache log saved savedLog)
      (ok : cache.appendToken ops token = .ok (.error error, cache')) :
      Run ops mode groupSize numSlots cache' log saved savedLog
  | commit {cache saved : CompressedKvCache} {log savedLog : List Token}
      (before : Run ops mode groupSize numSlots cache log saved savedLog) :
      Run ops mode groupSize numSlots cache.commitStep log cache.commitStep log
  | rollback {cache saved : CompressedKvCache} {log savedLog : List Token}
      (before : Run ops mode groupSize numSlots cache log saved savedLog) :
      Run ops mode groupSize numSlots cache.rollback savedLog saved savedLog

/-- What every run keeps: the committed tokens are the first of the log. -/
structure Consistent (ops : FloatOps) (mode : KvQuantMode) (cache : CompressedKvCache)
    (log : List Token) (saved : CompressedKvCache) (savedLog : List Token) : Prop where
  represents : Represents ops mode cache log
  saves : Represents ops mode saved savedLog
  committed : cache.committedLen ≤ log.length
  first : savedLog = log.take cache.committedLen

theorem Consistent.append {saved cache' : CompressedKvCache} {savedLog : List Token}
    {token : Token} (before : Consistent ops mode cache log saved savedLog)
    (ok : cache.appendToken ops token = .ok (.ok (), cache')) :
    Consistent ops mode cache' (log ++ [token]) saved savedLog := by
  rcases appendToken_cases before.represents ok with ⟨error, rejected, -⟩ | ⟨-, represents, kept⟩
  · cases rejected
  · have committed := before.committed
    constructor
    · exact represents
    · exact before.saves
    · rw [kept, List.length_append]
      omega
    · rw [kept, List.take_append_of_le_length committed]
      exact before.first

theorem Consistent.commit {saved : CompressedKvCache} {savedLog : List Token}
    (before : Consistent ops mode cache log saved savedLog) :
    Consistent ops mode cache.commitStep log cache.commitStep log := by
  have represents := before.represents
  have same : Represents ops mode cache.commitStep log :=
    ⟨represents.quantMode, represents.length, represents.seqLen, represents.short, represents.slot,
      represents.stored⟩
  have seqLen : cache.commitStep.committedLen = log.length := represents.seqLen
  constructor
  · exact same
  · exact same
  · exact seqLen.le
  · rw [seqLen, List.take_length]

theorem Consistent.rollback {saved : CompressedKvCache} {savedLog : List Token}
    (before : Consistent ops mode cache log saved savedLog) :
    Consistent ops mode cache.rollback savedLog saved savedLog := by
  have kept : cache.rollback.committedLen = cache.committedLen := by
    unfold CompressedKvCache.rollback
    split <;> rfl
  have length : savedLog.length = cache.committedLen := by
    rw [before.first, List.length_take, Nat.min_eq_left before.committed]
  constructor
  · rw [before.first]
    exact before.represents.rollback before.committed
  · exact before.saves
  · rw [kept, length]
  · rw [kept, ← length, List.take_length]

theorem Run.consistent {groupSize numSlots : ℕ} {saved : CompressedKvCache} {savedLog : List Token}
    (run : Run ops mode groupSize numSlots cache log saved savedLog) :
    Consistent ops mode cache log saved savedLog := by
  induction run with
  | new =>
    have empty := represents_new ops mode groupSize numSlots
    exact ⟨empty, empty, Nat.le_refl _, rfl⟩
  | append _ ok ih => exact ih.append ok
  | rejected _ ok ih =>
    rcases appendToken_cases ih.represents ok with ⟨error, -, rfl⟩ | ⟨accepted, -, -⟩
    · exact ih
    · cases accepted
  | commit _ ih => exact ih.commit
  | rollback _ ih => exact ih.rollback

/-- In every run the cache is the log of its tokens: its sequence is as long, its window reads
them, a rollback reads as the last commit did, and a rejected append changes nothing. -/
theorem Run.reads_log {groupSize numSlots : ℕ} {saved : CompressedKvCache} {savedLog : List Token}
    (run : Run ops mode groupSize numSlots cache log saved savedLog) :
    cache.slots.length = cache.seqLen ∧ cache.committedLen ≤ cache.seqLen ∧
      (cache.readWindow ops 0 cache.seqLen = do
        let pairs ← log.mapM (Token.reread ops mode)
        return .ok (pairs.flatMap Prod.fst, pairs.flatMap Prod.snd)) ∧
      (cache.rollback.seqLen = saved.seqLen ∧
        ∀ start stop, cache.rollback.readWindow ops start stop = saved.readWindow ops start stop) ∧
      ∀ token error cache', cache.appendToken ops token = .ok (.error error, cache') →
        cache' = cache := by
  have consistent := run.consistent
  have represents := consistent.represents
  have rolled := consistent.rollback.represents
  refine ⟨represents.length.trans represents.seqLen.symm,
    represents.seqLen ▸ consistent.committed, ?_, ⟨?_, ?_⟩, ?_⟩
  · rw [represents.readWindow, represents.seqLen, readTokens, List.take_length, List.drop_zero]
  · rw [rolled.seqLen, consistent.saves.seqLen]
  · intro start stop
    rw [rolled.readWindow, consistent.saves.readWindow]
  · intro token error cache' ok
    rcases appendToken_cases represents ok with ⟨_, -, same⟩ | ⟨accepted, -, -⟩
    · exact same
    · cases accepted

def symmetricToken (x : UInt32) : Token := ⟨[x, 0xBF800000], [0x40000000, 0], none⟩

def asymmetricToken : Token :=
  ⟨[0, 0x3F800000], [0xBF800000, 0x40000000], some (.keyPolarValueProd 4 4)⟩

theorem quantizeState_symmetricToken (x : UInt32) :
    ∃ st, (symmetricToken x).quantizeState .machine (.polar 4) = .ok st := by
  have same : (symmetricToken x).keys.length = (symmetricToken x).values.length := rfl
  have supports : (KvQuantMode.polar 4).Supports (symmetricToken x).keys.length := trivial
  obtain ⟨st, quantized, -⟩ :=
    quantizeState_ok .machine (by decide) (by decide) same supports
  exact ⟨st, quantized⟩

theorem quantizeState_asymmetricToken :
    ∃ st, asymmetricToken.quantizeState .machine (.polar 4) = .ok st := by
  obtain ⟨keys, -, keysOk⟩ := quantizePolarStoredScale_ok .machine asymmetricToken.keys
    (show 1 ≤ 4 by decide) (by decide)
  obtain ⟨values, -, valuesOk⟩ := quantizeProduct_ok .machine asymmetricToken.values
    (show 4 < 32 by decide)
  exact ⟨_, bind_ok_iff.mpr ⟨8, rfl, bind_ok_iff.mpr ⟨_, keysOk, bind_ok_iff.mpr
    ⟨_, bind_ok_iff.mpr ⟨_, valuesOk, rfl⟩, rfl⟩⟩⟩⟩

/-- Two tokens, the second rolled back: an asymmetric one takes its slot, which is still stale. -/
theorem asymmetric_over_stale_slot :
    ∃ rolled cache saved,
      Run .machine (.polar 4) 32 2 rolled [symmetricToken 0] saved [symmetricToken 0] ∧
      rolled.slots.length = 1 ∧ rolled.tq.state.length = 2 ∧
      rolled.appendToken .machine asymmetricToken = .ok (.ok (), cache) ∧
      cache.slots.length = cache.seqLen ∧ cache.committedLen ≤ cache.seqLen ∧
      (cache.readWindow .machine 0 cache.seqLen = do
        let pairs ← [symmetricToken 0, asymmetricToken].mapM (Token.reread .machine (.polar 4))
        return .ok (pairs.flatMap Prod.fst, pairs.flatMap Prod.snd)) ∧
      (cache.rollback.seqLen = saved.seqLen ∧ ∀ start stop,
        cache.rollback.readWindow .machine start stop = saved.readWindow .machine start stop) ∧
      ∀ token error cache', cache.appendToken .machine token = .ok (.error error, cache') →
        cache' = cache := by
  obtain ⟨st₁, quantized₁⟩ := quantizeState_symmetricToken 0
  obtain ⟨st₂, quantized₂⟩ := quantizeState_symmetricToken 0x3F800000
  obtain ⟨st₃, quantized₃⟩ := quantizeState_asymmetricToken
  obtain ⟨filler₁, appended₁⟩ := appendToken_ok (new (.polar 4) 32 2) _ Nat.two_pos quantized₁
    (by decide)
  let committed := ((new (.polar 4) 32 2).pushed Nat.two_pos filler₁ st₁).commitStep
  obtain ⟨filler₂, appended₂⟩ := appendToken_ok committed _ Nat.one_lt_two quantized₂
    (show 1 + 1 < 2 ^ 32 by decide)
  let rolled := (committed.pushed Nat.one_lt_two filler₂ st₂).rollback
  obtain ⟨filler₃, appended₃⟩ := appendToken_ok rolled _ Nat.one_lt_two quantized₃
    (show 1 + 1 < 2 ^ 32 by decide)
  have run := ((Run.new.append appended₁).commit.append appended₂).rollback
  exact ⟨rolled, _, _, run, rfl, rfl, appended₃, Run.reads_log (run.append appended₃)⟩

end CompressedKvCache

end TribunusCompute.KvCache
