import Mathlib.Data.List.GetD
import Mathlib.RingTheory.AdjoinRoot
import Mathlib.Algebra.CharP.Two
import Mathlib.Algebra.Field.ZMod

/-!
# Lib.Crc

Cyclic redundancy checks with a register as wide as a symbol, as remainders of polynomials over two elements.

* `ofWord_shiftOut`: a shift of the register multiplies by `X` modulo the generator.
* `mk_crc`: the register holds the remainder of the codeword of what it has taken.
* `crc_ne_of_burst`: two words that differ only within the width of the register have different remainders.
* `crc_eq_iff`: two generators give one remainder where that by their least common multiple is short enough.
-/

namespace VialQmk
namespace Lib
namespace Crc

open Polynomial

noncomputable def ofBit (b : Bool) : (ZMod 2)[X] := C (if b then 1 else 0)

/-- The bits of a word as the coefficients of a polynomial, the first one the highest. -/
noncomputable def ofBits (bs : List Bool) : (ZMod 2)[X] := bs.foldl (fun p b => p * X + ofBit b) 0

theorem ofBits_concat (bs : List Bool) (b : Bool) : ofBits (bs ++ [b]) = ofBits bs * X + ofBit b := by
  rw [ofBits, List.foldl_append]
  rfl

theorem ofBits_append (xs ys : List Bool) : ofBits (xs ++ ys) = ofBits xs * X ^ ys.length + ofBits ys := by
  induction ys using List.reverseRecOn with
  | nil => simp [ofBits]
  | append_singleton ys y ih =>
    rw [← List.append_assoc, ofBits_concat, ih, ofBits_concat, List.length_append, List.length_singleton, pow_succ]
    ring

theorem coeff_ofBits (bs : List Bool) (i : Nat) :
    (ofBits bs).coeff i = if bs.reverse.getD i false then 1 else 0 := by
  induction bs using List.reverseRecOn generalizing i with
  | nil => simp [ofBits]
  | append_singleton bs b ih =>
    rw [ofBits_concat, List.reverse_append, List.reverse_singleton, List.singleton_append, ofBit, coeff_add, coeff_C]
    cases i with
    | zero => simp
    | succ i => simp [ih]

theorem degree_ofBits_lt (bs : List Bool) : (ofBits bs).degree < bs.length := by
  rw [degree_lt_iff_coeff_zero]
  intro i hi
  rw [coeff_ofBits, List.getD_eq_default _ _ (by simpa using hi)]
  rfl

theorem ite_inj {b c : Bool} (h : (if b then 1 else 0 : ZMod 2) = if c then 1 else 0) : b = c := by
  revert b c
  decide

theorem ofBits_injective {xs ys : List Bool} (hlength : xs.length = ys.length) (h : ofBits xs = ofBits ys) :
    xs = ys := by
  apply List.reverse_injective
  apply List.ext_getElem (by simpa using hlength)
  intro i hx hy
  have hcoeff := congrArg (fun p => p.coeff i) h
  simp only [coeff_ofBits] at hcoeff
  have hget := ite_inj hcoeff
  rwa [List.getD_eq_getElem _ _ hx, List.getD_eq_getElem _ _ hy] at hget

variable {w : Nat}

def wordBits (x : BitVec w) : List Bool := (List.range w).map x.getMsbD

variable (x : BitVec w)

@[simp]
theorem length_wordBits : (wordBits x).length = w := by
  rw [wordBits, List.length_map, List.length_range]

noncomputable def ofWord (x : BitVec w) : (ZMod 2)[X] := ofBits (wordBits x)

theorem coeff_ofWord (i : Nat) : (ofWord x).coeff i = if x.getLsbD i then 1 else 0 := by
  rw [ofWord, coeff_ofBits]
  by_cases hi : i < w
  · rw [List.getD_eq_getElem _ _ (by simpa using hi), List.getElem_reverse]
    simp only [wordBits, List.getElem_map, List.getElem_range, List.length_map, List.length_range]
    rw [BitVec.getMsbD_eq_getLsbD, decide_eq_true (by omega), Bool.true_and, show w - 1 - (w - 1 - i) = i by omega]
  · rw [List.getD_eq_default _ _ (by simpa using hi), BitVec.getLsbD_of_ge _ _ (by omega)]

theorem degree_ofWord_lt : (ofWord x).degree < w := by
  have h := degree_ofBits_lt (wordBits x)
  rwa [length_wordBits] at h

theorem ofWord_injective : Function.Injective (ofWord : BitVec w → (ZMod 2)[X]) := by
  intro x y h
  apply BitVec.eq_of_getLsbD_eq
  intro i _
  have hcoeff := congrArg (fun p => p.coeff i) h
  simp only [coeff_ofWord] at hcoeff
  exact ite_inj hcoeff

theorem ofWord_xor (y : BitVec w) : ofWord (x ^^^ y) = ofWord x + ofWord y := by
  ext i
  rw [coeff_add, coeff_ofWord, coeff_ofWord, coeff_ofWord, BitVec.getLsbD_xor]
  generalize x.getLsbD i = b
  generalize y.getLsbD i = c
  revert b c
  decide

/-- The generator, whose highest coefficient the word leaves out. -/
noncomputable def generator (poly : BitVec w) : (ZMod 2)[X] := X ^ w + ofWord poly

theorem monic_generator (poly : BitVec w) : (generator poly).Monic := monic_X_pow_add (degree_ofWord_lt poly)

theorem degree_generator (poly : BitVec w) : (generator poly).degree = w := by
  rw [generator, degree_add_eq_left_of_degree_lt]
  · exact degree_X_pow w
  · rw [degree_X_pow]
    exact degree_ofWord_lt poly

def shiftOut (poly x : BitVec w) : BitVec w := if x.msb then x <<< 1 ^^^ poly else x <<< 1

theorem ofWord_shiftLeft : X * ofWord x = ofWord (x <<< 1) + if x.msb then X ^ w else 0 := by
  have hmsb : ∀ i, i + 1 = w → x.msb = x.getLsbD i := by
    intro i hi
    rw [BitVec.msb_eq_getLsbD_last, show w - 1 = i by omega]
  ext i
  rw [coeff_add, coeff_ofWord, BitVec.getLsbD_shiftLeft, apply_ite (fun p : (ZMod 2)[X] => p.coeff i), coeff_X_pow,
    coeff_zero]
  cases i with
  | zero =>
    rw [coeff_X_mul_zero]
    by_cases hw : 0 = w
    · subst hw
      simp [BitVec.msb_eq_getLsbD_last]
    · simp [hw]
  | succ i =>
    rw [coeff_X_mul, coeff_ofWord]
    by_cases hi : i + 1 = w
    · rw [hmsb i hi, if_pos hi]
      simp [hi]
    · rw [if_neg hi, ite_self, add_zero]
      by_cases hlt : i + 1 < w
      · simp [hlt]
      · rw [BitVec.getLsbD_of_ge _ _ (by omega)]
        simp [hlt]

theorem ofWord_shiftOut (poly x : BitVec w) :
    X * ofWord x = ofWord (shiftOut poly x) + (if x.msb then 1 else 0) * generator poly := by
  rw [ofWord_shiftLeft, shiftOut]
  split
  · rw [ofWord_xor, generator]
    linear_combination (- ofWord poly) * CharTwo.two_eq_zero (R := (ZMod 2)[X])
  · rw [zero_mul]

variable {poly : BitVec w}

theorem eq_zero_of_dvd {p : (ZMod 2)[X]} (h : generator poly ∣ p) (hdegree : p.degree < w) : p = 0 := by
  by_contra hne
  exact (monic_generator poly).not_dvd_of_degree_lt hne (by rwa [degree_generator]) h

theorem mk_shiftOut (poly x : BitVec w) :
    AdjoinRoot.mk (generator poly) (ofWord (shiftOut poly x)) =
      AdjoinRoot.mk (generator poly) (X * ofWord x) := by
  rw [ofWord_shiftOut, map_add, map_mul, AdjoinRoot.mk_self, mul_zero, add_zero]

theorem mk_shiftOuts (poly x : BitVec w) (n : Nat) :
    AdjoinRoot.mk (generator poly) (ofWord ((shiftOut poly)^[n] x)) =
      AdjoinRoot.mk (generator poly) (X ^ n * ofWord x) := by
  induction n with
  | zero => rw [pow_zero, one_mul, Function.iterate_zero_apply]
  | succ n ih => rw [Function.iterate_succ_apply', mk_shiftOut, map_mul, ih, ← map_mul, pow_succ', mul_assoc]

def crcStep (poly r d : BitVec w) : BitVec w := (shiftOut poly)^[w] (r ^^^ d)

def crc (poly init : BitVec w) (data : List (BitVec w)) : BitVec w := data.foldl (crcStep poly) init

def stringBits (data : List (BitVec w)) : List Bool := data.flatMap wordBits

theorem length_stringBits (data : List (BitVec w)) : (stringBits data).length = w * data.length := by
  induction data with
  | nil => rfl
  | cons d data ih =>
    rw [stringBits, List.flatMap_cons, List.length_append, ← stringBits, ih, length_wordBits, List.length_cons,
      Nat.mul_succ, Nat.add_comm]

/-- What the register holds the remainder of: the string with room for the register behind it, and the first value of
the register in front. -/
noncomputable def codeword (init : BitVec w) (data : List (BitVec w)) : (ZMod 2)[X] :=
  ofWord init * X ^ (w * data.length) + X ^ w * ofBits (stringBits data)

theorem mk_crc (poly init : BitVec w) (data : List (BitVec w)) :
    AdjoinRoot.mk (generator poly) (ofWord (crc poly init data)) =
      AdjoinRoot.mk (generator poly) (codeword init data) := by
  induction data generalizing init with
  | nil => simp [crc, codeword, stringBits, ofBits]
  | cons d data ih =>
    have hbits : ofBits (stringBits (d :: data)) = ofWord d * X ^ (w * data.length) + ofBits (stringBits data) := by
      rw [stringBits, List.flatMap_cons, ofBits_append, ← stringBits, length_stringBits]
      rfl
    have hcodeword : codeword init (d :: data) =
        X ^ w * ofWord (init ^^^ d) * X ^ (w * data.length) + X ^ w * ofBits (stringBits data) := by
      rw [codeword, hbits, ofWord_xor, List.length_cons, Nat.mul_succ, pow_add]
      ring
    rw [crc, List.foldl_cons, ← crc, ih, hcodeword, codeword, map_add, map_mul, crcStep, mk_shiftOuts, ← map_mul,
      ← map_add]

/-- Strings of one length that differ, in bits that all lie within as many as the register has. -/
def Burst (a b : List (BitVec w)) : Prop :=
  a.length = b.length ∧ a ≠ b ∧ ∃ k, ∀ i, i < k ∨ k + w ≤ i → (stringBits a)[i]? = (stringBits b)[i]?

theorem wordBits_injective : Function.Injective (wordBits : BitVec w → List Bool) := fun _ _ h =>
  ofWord_injective (congrArg ofBits h)

theorem stringBits_injective : ∀ {a b : List (BitVec w)}, a.length = b.length → stringBits a = stringBits b → a = b
  | [], [], _, _ => rfl
  | x :: a, y :: b, hlength, h => by
    rw [stringBits, stringBits, List.flatMap_cons, List.flatMap_cons] at h
    obtain ⟨hfirst, hrest⟩ := List.append_inj h (by rw [length_wordBits, length_wordBits])
    rw [wordBits_injective hfirst, stringBits_injective (Nat.succ.inj hlength) hrest]

theorem window_split {xs ys : List Bool} {k n : Nat} (hlength : xs.length = ys.length)
    (h : ∀ i, i < k ∨ k + n ≤ i → xs[i]? = ys[i]?) :
    ∃ p u v s, xs = p ++ (u ++ s) ∧ ys = p ++ (v ++ s) ∧ u.length = v.length ∧ u.length ≤ n := by
  have hfront : xs.take k = ys.take k := by
    apply List.ext_getElem?
    intro i
    rw [List.getElem?_take, List.getElem?_take]
    split
    · exact h i (.inl ‹_›)
    · rfl
  have hback : xs.drop (k + n) = ys.drop (k + n) := by
    apply List.ext_getElem?
    intro i
    rw [List.getElem?_drop, List.getElem?_drop]
    exact h _ (.inr (Nat.le_add_right _ _))
  refine ⟨xs.take k, (xs.drop k).take n, (ys.drop k).take n, xs.drop (k + n), ?_, ?_, ?_, List.length_take_le n _⟩
  · rw [← List.drop_drop, List.take_append_drop, List.take_append_drop]
  · rw [hfront, hback, ← List.drop_drop, List.take_append_drop, List.take_append_drop]
  · rw [List.length_take, List.length_take, List.length_drop, List.length_drop, hlength]

theorem isCoprime_X (hpoly : poly.getLsbD 0 = true) : IsCoprime (generator poly) X := by
  have hw : w ≠ 0 := by
    rintro rfl
    rw [BitVec.getLsbD_of_ge _ _ (Nat.le_refl 0)] at hpoly
    cases hpoly
  have hcoeff : (generator poly).coeff 0 = 1 := by
    rw [generator, coeff_add, coeff_X_pow, if_neg (Ne.symm hw), coeff_ofWord, hpoly, zero_add, if_pos rfl]
  refine ⟨1, - (generator poly).divX, ?_⟩
  have hdiv := divX_mul_X_add (generator poly)
  rw [hcoeff, C_1] at hdiv
  linear_combination - hdiv

/-- What tells the codewords of two strings apart is what tells them apart within a window. -/
theorem codeword_sub {a b : List (BitVec w)} {p u v s : List Bool} (init : BitVec w) (hlength : a.length = b.length)
    (ha : stringBits a = p ++ (u ++ s)) (hb : stringBits b = p ++ (v ++ s)) (huv : u.length = v.length) :
    codeword init a - codeword init b = X ^ (w + s.length) * (ofBits u - ofBits v) := by
  have hbits : ofBits (stringBits a) - ofBits (stringBits b) = (ofBits u - ofBits v) * X ^ s.length := by
    rw [ha, hb, ofBits_append p, ofBits_append p, ofBits_append u, ofBits_append v, List.length_append,
      List.length_append, huv]
    ring
  rw [codeword, codeword, hlength, pow_add]
  linear_combination X ^ w * hbits

theorem crc_ne_of_burst {a b : List (BitVec w)} (hpoly : poly.getLsbD 0 = true) (init : BitVec w) (h : Burst a b) :
    crc poly init a ≠ crc poly init b := by
  intro heq
  obtain ⟨hlength, hne, k, hk⟩ := h
  obtain ⟨p, u, v, s, ha, hb, huv, hle⟩ :=
    window_split (by rw [length_stringBits, length_stringBits, hlength]) hk
  have hmk := mk_crc poly init a
  rw [heq, mk_crc, eq_comm, AdjoinRoot.mk_eq_mk, codeword_sub init hlength ha hb huv] at hmk
  have hshort := (isCoprime_X hpoly).pow_right.dvd_of_dvd_mul_left hmk
  have hw : ((u.length : Nat) : WithBot Nat) ≤ w := by exact_mod_cast hle
  have hzero := eq_zero_of_dvd hshort (lt_of_le_of_lt (degree_sub_le _ _)
    (max_lt (lt_of_lt_of_le (degree_ofBits_lt u) hw) (lt_of_lt_of_le (degree_ofBits_lt v) (huv ▸ hw))))
  have hsame := ofBits_injective huv (sub_eq_zero.mp hzero)
  refine hne (stringBits_injective hlength ?_)
  rw [ha, hb, hsame]

theorem crc_eq_iff {poly₁ poly₂ : BitVec w} {n : Nat} {m : BitVec n} (hleft : generator poly₁ ∣ generator m)
    (hright : generator poly₂ ∣ generator m)
    (hleast : ∀ p, generator poly₁ ∣ p → generator poly₂ ∣ p → generator m ∣ p) (init : BitVec w)
    (data : List (BitVec w)) :
    crc poly₁ init data = crc poly₂ init data ↔ (codeword init data %ₘ generator m).degree < w := by
  have hlong : (w : WithBot Nat) ≤ (generator m).degree := by
    have h := degree_le_of_dvd hleft (monic_generator m).ne_zero
    rwa [degree_generator] at h
  have hdvd : generator m ∣ codeword init data - codeword init data %ₘ generator m := by
    refine ⟨codeword init data /ₘ generator m, ?_⟩
    linear_combination - modByMonic_add_div (codeword init data) (generator m)
  have hcrc : ∀ poly : BitVec w, generator poly ∣ ofWord (crc poly init data) - codeword init data := fun poly =>
    AdjoinRoot.mk_eq_mk.mp (mk_crc poly init data)
  constructor
  · intro heq
    have hmin := hleast _ (hcrc poly₁) (heq ▸ hcrc poly₂)
    have hshort : (ofWord (crc poly₁ init data)).degree < (generator m).degree :=
      lt_of_lt_of_le (degree_ofWord_lt _) hlong
    rw [← modByMonic_eq_of_dvd_sub (monic_generator m) hmin, (modByMonic_eq_self_iff (monic_generator m)).mpr hshort]
    exact degree_ofWord_lt _
  · intro hdegree
    have hrest : ∀ poly : BitVec w, generator poly ∣ generator m →
        ofWord (crc poly init data) = codeword init data %ₘ generator m := by
      intro poly hpoly
      have hsum := (hcrc poly).add (hpoly.trans hdvd)
      rw [sub_add_sub_cancel] at hsum
      exact sub_eq_zero.mp
        (eq_zero_of_dvd hsum (lt_of_le_of_lt (degree_sub_le _ _) (max_lt (degree_ofWord_lt _) hdegree)))
    exact ofWord_injective ((hrest poly₁ hleft).trans (hrest poly₂ hright).symm)

end Crc
end Lib
end VialQmk
