import Mathlib.Logic.Function.Iterate
import Mathlib.Data.List.Basic

/-!
# Reflected cyclic redundancy checks

A reflected check shifts its state to the right, once for every bit of the
message, and folds the polynomial in when a one drops out.  A shift is linear in
exclusive or, and injective when the polynomial has its top bit, so a message in
which a single byte has changed never has the checksum of the original.
-/

namespace Crc

variable {w : ℕ} (poly : BitVec w)

def shift (c : BitVec w) : BitVec w :=
  if c.getLsbD 0 then (c >>> 1) ^^^ poly else c >>> 1

def step (c : BitVec w) (byte : UInt8) : BitVec w :=
  (shift poly)^[8] (c ^^^ byte.toBitVec.setWidth w)

def update (c : BitVec w) (bytes : List UInt8) : BitVec w := bytes.foldl (step poly) c

/-! ## Linearity -/

theorem shift_xor (a b : BitVec w) : shift poly (a ^^^ b) = shift poly a ^^^ shift poly b := by
  have hmove : ∀ x y : BitVec w, x ^^^ y ^^^ poly = x ^^^ (y ^^^ poly) :=
    fun x y ↦ BitVec.xor_assoc x y poly
  simp only [shift, BitVec.getLsbD_xor, BitVec.ushiftRight_xor_distrib]
  cases a.getLsbD 0 <;> cases b.getLsbD 0
  · rfl
  · exact hmove _ _
  · rw [BitVec.xor_comm (a >>> 1), hmove, BitVec.xor_comm]
    rfl
  · have hcancel : a >>> 1 ^^^ poly ^^^ (b >>> 1 ^^^ poly) = a >>> 1 ^^^ b >>> 1 := by
      rw [BitVec.xor_comm (b >>> 1), BitVec.xor_assoc, ← BitVec.xor_assoc poly, BitVec.xor_self,
        BitVec.zero_xor]
    exact hcancel.symm

theorem iterate_shift_xor (n : ℕ) (a b : BitVec w) :
    (shift poly)^[n] (a ^^^ b) = (shift poly)^[n] a ^^^ (shift poly)^[n] b := by
  induction n with
  | zero => rfl
  | succ n ih => simp only [Function.iterate_succ_apply', ih, shift_xor]

theorem iterate_shift_of_low {c : BitVec w} {n : ℕ} (h : ∀ i < n, c.getLsbD i = false) :
    (shift poly)^[n] c = c >>> n := by
  induction n with
  | zero => exact (BitVec.ushiftRight_zero c).symm
  | succ n ih =>
    have hdropped : (c >>> n).getLsbD 0 = false := by
      rw [BitVec.getLsbD_ushiftRight]
      exact h n (Nat.lt_succ_self n)
    rw [Function.iterate_succ_apply', ih fun i hi ↦ h i (Nat.lt_succ_of_lt hi), shift,
      hdropped, if_neg Bool.false_ne_true, BitVec.shiftRight_add]

/-- The table method: the low bits go through the shifts alone, the others only
move. -/
theorem iterate_shift_eq (n : ℕ) {c low : BitVec w}
    (hlow : ∀ i, low.getLsbD i = (decide (i < n) && c.getLsbD i)) :
    (shift poly)^[n] c = c >>> n ^^^ (shift poly)^[n] low := by
  have hhigh : ∀ i < n, (c ^^^ low).getLsbD i = false := by
    intro i hi
    rw [BitVec.getLsbD_xor, hlow, decide_eq_true hi, Bool.true_and, Bool.xor_self]
  have hgone : low >>> n = 0#w := by
    apply BitVec.eq_of_getLsbD_eq
    intro i _
    rw [BitVec.getLsbD_ushiftRight, hlow, decide_eq_false (Nat.not_lt.mpr (Nat.le_add_right n i)),
      Bool.false_and, BitVec.getLsbD_zero]
  calc
    (shift poly)^[n] c = (shift poly)^[n] ((c ^^^ low) ^^^ low) := by
      rw [BitVec.xor_assoc, BitVec.xor_self, BitVec.xor_zero]
    _ = (c ^^^ low) >>> n ^^^ (shift poly)^[n] low := by
      rw [iterate_shift_xor, iterate_shift_of_low poly hhigh]
    _ = c >>> n ^^^ (shift poly)^[n] low := by
      rw [BitVec.ushiftRight_xor_distrib, hgone, BitVec.xor_zero]

/-! ## Injectivity -/

section Injective

variable {poly} (hpoly : poly.getLsbD (w - 1) = true)

include hpoly

theorem eq_zero_of_shift_eq_zero {c : BitVec w} (h : shift poly c = 0#w) : c = 0#w := by
  rw [shift] at h
  split at h
  · -- the top bit of the polynomial would have to cancel against a zero
    have htop := congrArg (·.getLsbD (w - 1)) h
    simp only [BitVec.getLsbD_xor, hpoly, BitVec.getLsbD_zero] at htop
    rw [BitVec.getLsbD_ushiftRight, BitVec.getLsbD_of_ge c _ (by omega)] at htop
    cases htop
  · rename_i hlow
    apply BitVec.eq_of_getLsbD_eq
    intro i _
    rw [BitVec.getLsbD_zero]
    cases i with
    | zero => exact Bool.eq_false_iff.mpr hlow
    | succ i =>
      have hbit := congrArg (·.getLsbD i) h
      simpa [BitVec.getLsbD_ushiftRight, Nat.add_comm] using hbit

theorem shift_injective : Function.Injective (shift poly) := by
  intro a b hab
  have hzero : shift poly (a ^^^ b) = 0#w := by
    rw [shift_xor, hab, BitVec.xor_self]
  exact BitVec.xor_eq_zero_iff.mp (eq_zero_of_shift_eq_zero hpoly hzero)

theorem step_injective (byte : UInt8) : Function.Injective (step poly · byte) := by
  intro a b hab
  exact (BitVec.xor_left_inj _).mp ((shift_injective hpoly).iterate 8 hab)

theorem update_injective (bytes : List UInt8) : Function.Injective (update poly · bytes) := by
  induction bytes with
  | nil => exact fun _ _ h ↦ h
  | cons byte bytes ih => exact ih.comp (step_injective hpoly byte)

/-- A change of one byte shows in the checksum, whatever stands around it. -/
theorem update_ne_of_byte (hw : 8 ≤ w) (c : BitVec w) (before after : List UInt8) {a b : UInt8}
    (hne : a ≠ b) :
    update poly c (before ++ a :: after) ≠ update poly c (before ++ b :: after) := by
  intro h
  simp only [update, List.foldl_append, List.foldl_cons] at h
  have hstep := (shift_injective hpoly).iterate 8 (update_injective hpoly after h)
  have hbits := (BitVec.xor_right_inj _).mp hstep
  apply hne
  apply UInt8.toBitVec_inj.mp
  have hback := congrArg (BitVec.setWidth 8) hbits
  rwa [BitVec.setWidth_setWidth_of_le _ hw, BitVec.setWidth_setWidth_of_le _ hw,
    BitVec.setWidth_eq, BitVec.setWidth_eq] at hback

end Injective

end Crc
