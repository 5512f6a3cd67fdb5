/-!
# Pages and buckets

Guest addresses are 32 bits wide and memory comes in pages of 4 KiB.  A page
is divided into 256 buckets of 16 bytes, the grain at which the blocks
compiled from it are indexed and their source bytes counted.
-/

namespace Recompiler

abbrev pageLimit : Nat := 1048576

def pageShift : Nat := 12

abbrev pageSize : Nat := 4096

def offsetMask : Nat := pageSize - 1

def bucketShift : Nat := 4

abbrev bucketCount : Nat := 256

abbrev Offset := Fin pageSize

abbrev Bucket := Fin bucketCount

def pageOf (addr : UInt32) : Nat := addr.toNat / pageSize

def offsetOf (addr : UInt32) : Offset :=
  ⟨addr.toNat % pageSize, Nat.mod_lt _ (by decide)⟩

def addressOf (page : Nat) (offset : Offset) : UInt32 :=
  (page * pageSize + offset.val).toUInt32

def bucketOf (offset : Offset) : Bucket :=
  ⟨offset.val >>> bucketShift, by
    have := offset.isLt
    simp only [pageSize, bucketCount, bucketShift, Nat.shiftRight_eq_div_pow] at *
    omega⟩

def bytesBetween (page : Vector UInt8 pageSize) (first last : Offset) : List UInt8 :=
  (page.toList.take (last.val + 1)).drop first.val

theorem pageOf_mul_add_offsetOf (addr : UInt32) :
    pageOf addr * pageSize + (offsetOf addr).val = addr.toNat :=
  Nat.div_add_mod' addr.toNat pageSize

theorem addressOf_pageOf_offsetOf (addr : UInt32) :
    addressOf (pageOf addr) (offsetOf addr) = addr := by
  rw [addressOf, pageOf_mul_add_offsetOf]
  exact UInt32.ofNat_toNat

theorem pageOf_lt (addr : UInt32) : pageOf addr < pageLimit := by
  have := addr.toNat_lt
  simp only [pageOf, pageSize, pageLimit]
  omega

theorem toNat_addressOf {page : Nat} (offset : Offset) (h : page < pageLimit) :
    (addressOf page offset).toNat = page * pageSize + offset.val := by
  have ho := offset.isLt
  simp only [addressOf, Nat.toUInt32, UInt32.toNat_ofNat', pageSize, pageLimit] at *
  omega

theorem pageOf_addressOf {page : Nat} (offset : Offset) (h : page < pageLimit) :
    pageOf (addressOf page offset) = page := by
  have ho := offset.isLt
  rw [pageOf, toNat_addressOf offset h]
  simp only [pageSize] at *
  omega

theorem offsetOf_addressOf {page : Nat} (offset : Offset) (h : page < pageLimit) :
    offsetOf (addressOf page offset) = offset := by
  have ho := offset.isLt
  apply Fin.ext
  simp only [offsetOf, toNat_addressOf offset h, pageSize] at *
  omega

theorem bucketOf_mono {a b : Offset} (h : a ≤ b) : bucketOf a ≤ bucketOf b := by
  simp only [bucketOf, Fin.le_def, Nat.shiftRight_eq_div_pow]
  exact Nat.div_le_div_right h

end Recompiler
