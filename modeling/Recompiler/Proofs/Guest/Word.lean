import Mathlib.Algebra.GroupWithZero.Nat
import Recompiler.Guest.Bus

/-!
# The bytes of a word

A word is its bytes, the lowest first; an access of a width moves the lowest of
them and no others.
-/

namespace Recompiler

theorem getElem_toBitVec_byteAt {i : Nat} (hi : i < 4) (v : UInt32) {j : Nat} (hj : j < 8) :
    (byteAt v i).toBitVec[j] = v.toBitVec.getLsbD (8 * i + j) := by
  have : i = 0 ∨ i = 1 ∨ i = 2 ∨ i = 3 := by omega
  rcases this with rfl | rfl | rfl | rfl <;> simp [byteAt]

theorem eq_of_byteAt {v w : UInt32} (h : ∀ i < 4, byteAt v i = byteAt w i) : v = w := by
  apply UInt32.toBitVec_inj.mp
  ext k hk
  have hj : k % 8 < 8 := Nat.mod_lt _ (by decide)
  have hi : k / 8 < 4 := by omega
  have hbyte := congrArg (fun b : UInt8 => b.toBitVec[k % 8]) (h _ hi)
  simp only [getElem_toBitVec_byteAt hi _ hj, Nat.div_add_mod] at hbyte
  rwa [BitVec.getLsbD_eq_getElem hk, BitVec.getLsbD_eq_getElem hk] at hbyte

theorem byteAt_or_shift_zero (b : UInt8) (w : UInt32) :
    byteAt (b.toUInt32 ||| (w <<< 8)) 0 = b := by
  apply UInt8.toBitVec_inj.mp
  ext j hj
  rw [getElem_toBitVec_byteAt (by decide) _ hj]
  simp [hj]
  omega

theorem byteAt_or_shift_succ (b : UInt8) (w : UInt32) {i : Nat} (hi : i < 3) :
    byteAt (b.toUInt32 ||| (w <<< 8)) (i + 1) = byteAt w i := by
  apply UInt8.toBitVec_inj.mp
  ext j hj
  rw [getElem_toBitVec_byteAt (by omega) _ hj, getElem_toBitVec_byteAt (by omega) _ hj]
  have h1 : 8 * (i + 1) + j - 8 = 8 * i + j := by omega
  have h2 : ¬8 * (i + 1) + j < 8 := by omega
  have h3 : 8 * (i + 1) + j < 32 := by omega
  have h4 : b.toBitVec.getLsbD (8 * (i + 1) + j) = false :=
    BitVec.getLsbD_of_ge _ _ (Nat.le_of_not_lt h2)
  simp [h1, h2, h3, h4, BitVec.getLsbD_eq_getElem (show 8 * i + j < 32 by omega)]

theorem byteAt_ofBytes {bs : List UInt8} (h : bs.length ≤ 4) {i : Nat} (hi : i < bs.length) :
    byteAt (ofBytes bs) i = bs[i] := by
  induction bs generalizing i with
  | nil => cases hi
  | cons b rest ih =>
      rw [List.length_cons] at h hi
      cases i with
      | zero => exact byteAt_or_shift_zero b _
      | succ i =>
          rw [ofBytes, byteAt_or_shift_succ b _ (by omega), ih (by omega) (by omega)]
          rfl

theorem getLsbD_mask {n k : Nat} (hk : k < n) (hn : n ≤ 32) :
    (BitVec.ofNat 32 (2 ^ n - 1)).getLsbD k = true := by
  rw [BitVec.getLsbD_ofNat, Nat.testBit_two_pow_sub_one]
  simp [hk]
  omega

theorem Width.bytes_le (width : Width) : width.bytes ≤ 4 := by
  cases width <;> decide

theorem byteAt_truncate (width : Width) (v : UInt32) {i : Nat} (hi : i < width.bytes) :
    byteAt (width.truncate v) i = byteAt v i := by
  apply UInt8.toBitVec_inj.mp
  ext j hj
  have hi4 : i < 4 := Nat.lt_of_lt_of_le hi width.bytes_le
  rw [getElem_toBitVec_byteAt hi4 _ hj, getElem_toBitVec_byteAt hi4 _ hj]
  cases width with
  | byte =>
      have hmask : (255#32).getLsbD (8 * i + j) = true :=
        getLsbD_mask (n := 8) (by simp only [Width.bytes] at hi; omega) (by decide)
      simp [Width.truncate, hmask]
  | word =>
      have hmask : (65535#32).getLsbD (8 * i + j) = true :=
        getLsbD_mask (n := 16) (by simp only [Width.bytes] at hi; omega) (by decide)
      simp [Width.truncate, hmask]
  | long => rfl

theorem byteAt_eq_zero_of_lt {v : UInt32} {i : Nat} (hi : i < 4) (h : v.toNat < 2 ^ (8 * i)) :
    byteAt v i = 0 := by
  apply UInt8.toBitVec_inj.mp
  ext j hj
  rw [getElem_toBitVec_byteAt hi v hj, BitVec.getLsbD, UInt32.toNat_toBitVec,
    Nat.testBit_lt_two_pow (Nat.lt_of_lt_of_le h (Nat.pow_le_pow_right (by decide) (by omega)))]
  simp

theorem toNat_ofBytes_lt (bs : List UInt8) : (ofBytes bs).toNat < 2 ^ (8 * bs.length) := by
  induction bs with
  | nil => decide
  | cons b rest ih =>
      rw [ofBytes, UInt32.toNat_or, List.length_cons, Nat.mul_succ]
      refine Nat.or_lt_two_pow ?_ ?_
      · rw [UInt8.toNat_toUInt32]
        exact Nat.lt_of_lt_of_le b.toNat_lt (Nat.pow_le_pow_right (by decide) (by omega))
      · rw [UInt32.toNat_shiftLeft]
        refine Nat.lt_of_le_of_lt (Nat.mod_le _ _) ?_
        rw [Nat.shiftLeft_eq, Nat.pow_add]
        exact Nat.mul_lt_mul_of_pos_right ih (by decide)

theorem toNat_truncate_lt (width : Width) (v : UInt32) :
    (width.truncate v).toNat < 2 ^ (8 * width.bytes) := by
  cases width with
  | byte => exact Nat.lt_of_le_of_lt (UInt32.toNat_and .. ▸ Nat.and_le_right) (by decide)
  | word => exact Nat.lt_of_le_of_lt (UInt32.toNat_and .. ▸ Nat.and_le_right) (by decide)
  | long => exact v.toNat_lt

/-- The bytes an access moves make up the word it moves. -/
theorem ofBytes_byteAt (width : Width) (v : UInt32) :
    ofBytes ((List.range width.bytes).map (byteAt v)) = width.truncate v := by
  have hlength : ((List.range width.bytes).map (byteAt v)).length = width.bytes := by simp
  refine eq_of_byteAt fun i hi => ?_
  by_cases hin : i < width.bytes
  · rw [byteAt_ofBytes (by rw [hlength]; exact width.bytes_le) (by rwa [hlength]),
      byteAt_truncate width v hin]
    simp
  · have hle : 2 ^ (8 * width.bytes) ≤ 2 ^ (8 * i) := Nat.pow_le_pow_right (by decide) (by omega)
    have hbytes := toNat_ofBytes_lt ((List.range width.bytes).map (byteAt v))
    rw [hlength] at hbytes
    rw [byteAt_eq_zero_of_lt hi (Nat.lt_of_lt_of_le hbytes hle),
      byteAt_eq_zero_of_lt hi (Nat.lt_of_lt_of_le (toNat_truncate_lt width v) hle)]

end Recompiler
