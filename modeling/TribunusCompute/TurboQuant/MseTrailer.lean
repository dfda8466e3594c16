import TribunusCompute.TurboQuant.Lossless
import TribunusCompute.TurboQuant.Transforms

/-!
# The trailer of the state codec

The encoder stores the bits, the state bits and the scale, in this order; the decoder reads a
scale, bits and state bits. What was packed is read back exactly when the three fields have the
same pattern.
-/
namespace TribunusCompute.TurboQuant

open Outcome BitStream

/-! ## What the encoder stores -/

section

variable (ops : FloatOps) (data : List UInt32) (bits stateBits : ℕ)

def mseIndex (scale : UInt32) (quantLevels : ℕ) (x : UInt32) : ℕ :=
  if ops.eq scale 0 then 0
  else min (ops.toU32 (ops.round (ops.div (ops.abs x) scale))) ((quantLevels - 1) % 2 ^ 32)

/-- The sign and the index that are packed for an element, below its state. -/
def mseCode (x : UInt32) : ℕ × ℕ :=
  (signOf ops x, mseIndex ops (mseScale ops data (2 ^ bits)) (2 ^ bits) x)

def mseValue (state : ℕ) (code : ℕ × ℕ) : ℕ :=
  state <<< (1 + bits) ||| code.1 <<< bits ||| code.2

end

/-! ## What the decoder reads -/

structure MseTrailer where
  scale : UInt32
  bits : ℕ
  stateBits : ℕ
  deriving DecidableEq

def readTrailer (buf : List UInt8) : MseTrailer :=
  let off := buf.length - 12
  ⟨readFloat buf off, readU32 buf (off + 4), readU32 buf (off + 8)⟩

def readCode (trailer : MseTrailer) (val : ℕ) : Outcome (ℕ × ℕ) := do
  let aboveSign ← fit 32 (trailer.bits + 1)
  let _stateId ← shr 32 val aboveSign
  let sign ← shr 32 val trailer.bits
  let levels ← shl 32 1 trailer.bits
  return (sign % 2, val &&& (levels - 1))

def readCodes (buf : List UInt8) (len : ℕ) : Outcome (List (ℕ × ℕ)) := do
  let trailer := readTrailer buf
  let width ← fit 32 (trailer.stateBits + trailer.bits)
  unpackAll (width + 1) (readCode trailer) buf len

/-- A traversal followed by a map is a traversal with the map after each element. -/
theorem mapM_map_after {α β γ : Type} (f : α → Outcome β) (g : β → γ) (as : List α) :
    as.mapM (fun a => g <$> f a) = (List.map g) <$> as.mapM f := by
  induction as with
  | nil => rfl
  | cons a as ih =>
    rw [List.mapM_cons, List.mapM_cons, ih]
    cases f a with
    | error fault => rfl
    | ok b => cases as.mapM f <;> rfl

/-- The decoder multiplies the index it reads by the scale it reads, under the sign it reads. -/
theorem dequantizeMse_eq (ops : FloatOps) {buf : List UInt8} (room : 12 ≤ buf.length) (len : ℕ) :
    dequantizeMse ops buf len =
      (List.map fun code => withSign ops code.1
        (ops.mul (ops.ofNat code.2) (readTrailer buf).scale)) <$> readCodes buf len := by
  unfold dequantizeMse
  rw [if_neg (Nat.not_lt.mpr room)]
  -- both sides read the same fields, and take each code apart in the same steps
  show (do
    let width ← fit 32 ((readTrailer buf).stateBits + (readTrailer buf).bits)
    unpackCodes (width + 1) (fun val => do
      let aboveSign ← fit 32 ((readTrailer buf).bits + 1)
      let _stateId ← shr 32 val aboveSign
      let sign ← shr 32 val (readTrailer buf).bits
      let levels ← shl 32 1 (readTrailer buf).bits
      return withSign ops (sign % 2) (ops.mul (ops.ofNat (val &&& (levels - 1)))
        (readTrailer buf).scale)) buf len) = _
  unfold readCodes unpackCodes unpackAll
  rw [map_bind]
  refine congrArg (fit 32 _ >>= ·) (funext fun width => ?_)
  rw [← mapM_map_after]
  simp only [readCode, map_bind, map_pure]

/-! ## The encoder returns -/

section

variable {ops : FloatOps} {data : List UInt32} {bits stateBits : ℕ}

theorem mseIndex_lt (scale : UInt32) (narrow : bits ≤ 32) (x : UInt32) :
    mseIndex ops scale (2 ^ bits) x < 2 ^ bits := by
  have positive := Nat.two_pow_pos bits
  unfold mseIndex
  split
  · exact positive
  · have bound : 2 ^ bits ≤ 2 ^ 32 := Nat.pow_le_pow_right (by decide) narrow
    rw [Nat.mod_eq_of_lt (by omega)]
    omega

theorem nearerState_total (target : UInt32) {codebook : List UInt32} {bestIdx : ℕ}
    (sized : codebook.length = 2 ^ bits) (index : bestIdx < 2 ^ bits) (high : bits ≤ 16)
    (states : stateBits ≤ 8) :
    ∃ best, (List.range (2 ^ stateBits)).foldlM
        (nearerState ops codebook target bestIdx (2 ^ bits)) (0, floatMax) = .ok best ∧
      best.1 < 2 ^ stateBits := by
  apply foldlM_total (fun best : ℕ × UInt32 => best.1 < 2 ^ stateBits) _ (Nat.two_pow_pos _)
  intro best s member below
  have s_lt := List.mem_range.mp member
  -- the product of a state and an index stays far below the word size
  have few : 2 ^ stateBits ≤ 2 ^ 8 := Nat.pow_le_pow_right (by decide) states
  have short : 2 ^ bits ≤ 2 ^ 16 := Nat.pow_le_pow_right (by decide) high
  have fits : s * bestIdx < 2 ^ 64 :=
    calc s * bestIdx ≤ 2 ^ 8 * 2 ^ 16 := Nat.mul_le_mul (by omega) (by omega)
      _ < 2 ^ 64 := by decide
  obtain ⟨stateVal, found⟩ : ∃ stateVal, at_ codebook (s * bestIdx % 2 ^ bits) = .ok stateVal := by
    have inside : s * bestIdx % 2 ^ bits < codebook.length := by
      rw [sized]
      exact Nat.mod_lt _ (Nat.two_pow_pos bits)
    exact ⟨codebook[s * bestIdx % 2 ^ bits], by rw [at_, List.getElem?_eq_getElem inside]⟩
  refine ⟨_, bind_ok_iff.mpr ⟨_, fit_ok_iff.mpr ⟨fits, rfl⟩,
    bind_ok_iff.mpr ⟨stateVal, found, rfl⟩⟩, ?_⟩
  split
  · rw [Nat.mod_eq_of_lt (by omega)]
    exact s_lt
  · exact below

/-- The encoder packs a state, the sign and the index of each element, and then its trailer. -/
theorem quantizeMse_ok (ops : FloatOps) (data : List UInt32) (high : bits ≤ 16)
    (states : stateBits ≤ 8) :
    ∃ (state : UInt32 → ℕ) (packed : List UInt8), (∀ x, state x < 2 ^ stateBits) ∧
      Holds packed ((data.map fun x => mseValue bits (state x) (mseCode ops data bits x)).flatMap
        (digits (stateBits + bits + 1))) ∧
      quantizeMse ops data bits stateBits = .ok (packed ++ leBytes bits ++ leBytes stateBits ++
        leBytes (mseScale ops data (2 ^ bits)).toNat) := by
  have index : ∀ x, (mseCode ops data bits x).2 < 2 ^ bits :=
    fun x => mseIndex_lt _ (by omega) x
  have search : ∀ x, ∃ best, (List.range (2 ^ stateBits)).foldlM
      (nearerState ops ((List.range (2 ^ bits)).map fun i =>
          ops.mul (ops.ofNat i) (mseScale ops data (2 ^ bits)))
        (ops.mul (ops.ofNat (mseCode ops data bits x).2) (mseScale ops data (2 ^ bits)))
        (mseCode ops data bits x).2 (2 ^ bits)) (0, floatMax) = .ok best ∧
      best.1 < 2 ^ stateBits :=
    fun x => nearerState_total _ (by simp) (index x) high states
  -- the state that the search finds depends on float arithmetic: any will do
  choose best found below using search
  obtain ⟨packed, ok, holds⟩ := packCodes_ok
    (fun x => do
      let bestIdx := (mseCode ops data bits x).2
      let targetQval := ops.mul (ops.ofNat bestIdx) (mseScale ops data (2 ^ bits))
      let best ← (List.range (2 ^ stateBits)).foldlM
        (nearerState ops ((List.range (2 ^ bits)).map fun i =>
          ops.mul (ops.ofNat i) (mseScale ops data (2 ^ bits))) targetQval bestIdx (2 ^ bits))
        (0, floatMax)
      let aboveSign ← fit 32 (1 + bits)
      let state ← shl 32 best.1 aboveSign
      let sign ← shl 32 (signOf ops x) bits
      return state ||| sign ||| bestIdx)
    (fun x => mseValue bits (best x).1 (mseCode ops data bits x))
    holds_nil (show stateBits + bits + 1 ≤ 32 by omega) (by
      intro x (_ : x ∈ data)
      apply bind_ok_iff.mpr ⟨best x, found x, _⟩
      apply bind_ok_iff.mpr ⟨1 + bits, fit_ok_iff.mpr ⟨by omega, rfl⟩, _⟩
      apply bind_ok_iff.mpr ⟨_, shl_fits stateBits (below x) (by omega) (by omega), _⟩
      exact bind_ok_iff.mpr ⟨_, shl_fits 1 (signOf_lt ops x) (by omega) (by omega), rfl⟩)
  refine ⟨fun x => (best x).1, packed, below, by simpa using holds, ?_⟩
  apply bind_ok_iff.mpr ⟨_, shl_one (by omega), _⟩
  apply bind_ok_iff.mpr ⟨_, shl_one (by omega), _⟩
  apply bind_ok_iff.mpr ⟨_, fit_ok_iff.mpr ⟨by omega, rfl⟩, _⟩
  exact bind_ok_iff.mpr ⟨packed, ok, rfl⟩

/-- The decoder takes the stored bits for the scale, the state bits for the bits and the scale
for the state bits. -/
theorem readTrailer_eq (packed : List UInt8) (narrow : bits < 2 ^ 32) (states : stateBits < 2 ^ 32)
    (scale : UInt32) :
    readTrailer (packed ++ leBytes bits ++ leBytes stateBits ++ leBytes scale.toNat) =
      ⟨UInt32.ofNat bits, stateBits, scale.toNat⟩ := by
  have off : (packed ++ leBytes bits ++ leBytes stateBits ++ leBytes scale.toNat).length - 12 =
    packed.length := by simp
  unfold readTrailer
  simp only [off, readFloat]
  rw [readU32_eq packed (leBytes stateBits ++ leBytes scale.toNat) (n := bits)
      (by simp only [List.append_assoc]) rfl narrow,
    readU32_eq (packed ++ leBytes bits) (leBytes scale.toNat) (n := stateBits)
      (by simp only [List.append_assoc]) (by simp) states,
    readU32_eq (packed ++ leBytes bits ++ leBytes stateBits) [] (n := scale.toNat) (by simp)
      (by simp) scale.toNat_lt]

theorem mseValue_lt {state : ℕ} {code : ℕ × ℕ} (below : state < 2 ^ stateBits)
    (sign : code.1 < 2 ^ 1) (index : code.2 < 2 ^ bits) :
    mseValue bits state code < 2 ^ (stateBits + bits + 1) := by
  have signed := shiftLeft_or_lt (shiftLeft_or_lt below sign) index
  have widths : stateBits + 1 + bits = stateBits + bits + 1 := by omega
  rw [widths, Nat.shiftLeft_or_distrib, ← Nat.shiftLeft_add] at signed
  exact signed

theorem readCode_mseValue (trailer : MseTrailer) (narrow : trailer.bits + 1 < 32) {state : ℕ}
    {code : ℕ × ℕ} (sign : code.1 < 2 ^ 1) (index : code.2 < 2 ^ trailer.bits) :
    readCode trailer (mseValue trailer.bits state code) = .ok code := by
  have split : mseValue trailer.bits state code =
      (state <<< 1 ||| code.1) <<< trailer.bits ||| code.2 := by
    rw [mseValue, Nat.shiftLeft_or_distrib, ← Nat.shiftLeft_add]
  apply bind_ok_iff.mpr ⟨_, fit_ok_iff.mpr ⟨by omega, rfl⟩, _⟩
  apply bind_ok_iff.mpr ⟨_, shr_ok narrow _, _⟩
  apply bind_ok_iff.mpr ⟨_, shr_ok (by omega) _, _⟩
  apply bind_ok_iff.mpr ⟨_, shl_one (by omega), _⟩
  have first : mseValue trailer.bits state code >>> trailer.bits % 2 = code.1 := by
    rw [split, shiftLeft_or_shiftRight index]
    have low := shiftLeft_or_and (a := state) (m := 1) sign
    rwa [Nat.and_two_pow_sub_one_eq_mod] at low
  have second : mseValue trailer.bits state code &&& (2 ^ trailer.bits - 1) = code.2 := by
    rw [split, shiftLeft_or_and index]
  rw [first, second]
  rfl

theorem readCodes_ok {packed rest : List UInt8} {scale : UInt32} {state : UInt32 → ℕ}
    (high : bits ≤ 16) (states : stateBits ≤ 8) (below : ∀ x, state x < 2 ^ stateBits)
    (holds : Holds packed
      ((data.map fun x => mseValue bits (state x) (mseCode ops data bits x)).flatMap
        (digits (stateBits + bits + 1))))
    (trailer : readTrailer (packed ++ rest) = ⟨scale, bits, stateBits⟩) :
    readCodes (packed ++ rest) data.length = .ok (data.map (mseCode ops data bits)) := by
  rw [readCodes, trailer]
  have fits : stateBits + bits < 2 ^ 32 := by omega
  apply bind_ok_iff.mpr ⟨_, fit_ok_iff.mpr ⟨fits, rfl⟩, _⟩
  apply unpackAll_packed holds (by omega)
  · intro x _
    exact mseValue_lt (below x) (signOf_lt ops x) (mseIndex_lt _ (by omega) x)
  · intro x _
    have narrow : (MseTrailer.mk scale bits stateBits).bits + 1 < 32 := by
      show bits + 1 < 32
      omega
    exact readCode_mseValue ⟨scale, bits, stateBits⟩ narrow (signOf_lt ops x)
      (mseIndex_lt _ (by omega) x)

end

/-! ## The round trip -/

/-- The encoder returns, and the decoder reads back the fields that it stored and the signs and
the indices that it packed. -/
def ReadsBack (ops : FloatOps) (data : List UInt32) (bits stateBits : ℕ) : Prop :=
  ∃ buf, quantizeMse ops data bits stateBits = .ok buf ∧
    readTrailer buf = ⟨mseScale ops data (2 ^ bits), bits, stateBits⟩ ∧
    readCodes buf data.length = .ok (data.map (mseCode ops data bits))

theorem toNat_ofNat_bits {bits : ℕ} (high : bits ≤ 16) : (UInt32.ofNat bits).toNat = bits :=
  UInt32.toNat_ofNat_of_lt' (by
    show bits < 4294967296
    omega)

/-- The scale of the zeros is one, whose pattern no number of bits is. -/
theorem mseScale_eq_ofNat_iff (ops : FloatOps) (data : List UInt32) {bits : ℕ} (high : bits ≤ 16) :
    mseScale ops data (2 ^ bits) = UInt32.ofNat bits ↔
      ops.eq (maxAbs ops data) 0 = false ∧
        ops.div (maxAbs ops data) (ops.ofNat (2 ^ bits)) = UInt32.ofNat bits := by
  have apart : one ≠ UInt32.ofNat bits := by
    intro same
    have pattern : one.toNat = bits := by rw [same, toNat_ofNat_bits high]
    rw [show one.toNat = 0x3F800000 from rfl] at pattern
    omega
  unfold mseScale
  simp only
  cases zeros : ops.eq (maxAbs ops data) 0 with
  | true => simpa using apart
  | false => simp

/-- The fields are read back exactly when the state bits are the bits, and the largest magnitude
over the number of levels is the float with that pattern. -/
theorem readsBack_iff (ops : FloatOps) (data : List UInt32) (bits stateBits : ℕ) (low : 1 ≤ bits)
    (high : bits ≤ 16) (states : stateBits ≤ 8) :
    ReadsBack ops data bits stateBits ↔
      stateBits = bits ∧ ops.eq (maxAbs ops data) 0 = false ∧
        ops.div (maxAbs ops data) (ops.ofNat (2 ^ bits)) = UInt32.ofNat bits := by
  rw [← mseScale_eq_ofNat_iff ops data high]
  obtain ⟨state, packed, below, holds, ok⟩ := quantizeMse_ok ops data high states
  have fields := readTrailer_eq packed (show bits < 2 ^ 32 by omega)
    (show stateBits < 2 ^ 32 by omega) (mseScale ops data (2 ^ bits))
  constructor
  · rintro ⟨buf, ok', trailer, -⟩
    obtain rfl := Except.ok.inj (ok.symm.trans ok')
    rw [fields] at trailer
    -- the first two fields decide
    obtain ⟨scale, same, -⟩ := MseTrailer.mk.inj trailer
    exact ⟨same, scale.symm⟩
  · rintro ⟨rfl, scale⟩
    -- and then the third is right too
    have pattern : (mseScale ops data (2 ^ stateBits)).toNat = stateBits := by
      rw [scale, toNat_ofNat_bits high]
    have same : readTrailer (packed ++ leBytes stateBits ++ leBytes stateBits ++
        leBytes (mseScale ops data (2 ^ stateBits)).toNat) =
          ⟨mseScale ops data (2 ^ stateBits), stateBits, stateBits⟩ := by
      rw [fields, pattern, scale]
    refine ⟨_, ok, same, ?_⟩
    rw [List.append_assoc, List.append_assoc] at same ⊢
    exact readCodes_ok high states below holds same

/-- Two state bits beside four bits: the decoder takes two bits for four. -/
theorem two_state_bits_not_readsBack :
    ¬ ∀ (data : List UInt32) (bits stateBits : ℕ), 1 ≤ bits → bits ≤ 16 → stateBits ≤ 8 →
      ReadsBack .machine data bits stateBits := by
  intro all
  obtain ⟨buf, ok, trailer, -⟩ := all [0x3F800000] 4 2 (by decide) (by decide) (by decide)
  obtain ⟨-, packed, -, -, ok'⟩ := quantizeMse_ok .machine [0x3F800000] (show 4 ≤ 16 by decide)
    (show 2 ≤ 8 by decide)
  obtain rfl := Except.ok.inj (ok'.symm.trans ok)
  rw [readTrailer_eq packed (by decide) (by decide)] at trailer
  have same := (MseTrailer.mk.inj trailer).2.1
  exact absurd same (by decide)

/-- As many state bits as bits do not help a vector of zeros, whose scale is one. -/
theorem zeros_not_readsBack : ¬ReadsBack .machine [0, 0] 4 4 := by
  rw [readsBack_iff .machine [0, 0] 4 4 (by decide) (by decide) (by decide)]
  decide

end TribunusCompute.TurboQuant
