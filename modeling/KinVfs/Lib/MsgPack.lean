import Mathlib.Algebra.Group.Int.Defs
import Mathlib.Algebra.GroupWithZero.Nat
import Mathlib.Tactic.Common

/-!
# MessagePack

The shortest encodings of the format, and how long each is: integers (`uint`), text (`str`), byte
strings (`bin`), arrays (`array`) and maps with one entry (`entry`). `octets` is a byte string written as
an array of integers, where a byte from `0x80` on takes two bytes (`length_octets`).
-/

namespace MsgPack

/-! ## Big-endian numbers -/

/-- The low `width` bytes of `n`, the highest first. -/
def bigEndian : Nat → Nat → List UInt8
  | 0, _ => []
  | width + 1, n => bigEndian width (n / 256) ++ [UInt8.ofNat n]

def ofBigEndian (bytes : List UInt8) : Nat := bytes.foldl (fun n b => n * 256 + b.toNat) 0

@[simp] theorem length_bigEndian (width n : Nat) : (bigEndian width n).length = width := by
  induction width generalizing n with
  | zero => rfl
  | succ width ih => simp [bigEndian, ih]

theorem ofBigEndian_concat (bytes : List UInt8) (b : UInt8) :
    ofBigEndian (bytes ++ [b]) = 256 * ofBigEndian bytes + b.toNat := by
  rw [ofBigEndian, List.foldl_append, Nat.mul_comm]
  rfl

theorem ofBigEndian_bigEndian {width n : Nat} (h : n < 256 ^ width) :
    ofBigEndian (bigEndian width n) = n := by
  induction width generalizing n with
  | zero =>
    have hzero : n = 0 := by simpa using h
    subst hzero
    rfl
  | succ width ih =>
    have hhigh : n / 256 < 256 ^ width := Nat.div_lt_of_lt_mul (by rwa [Nat.pow_succ'] at h)
    have hlow : (UInt8.ofNat n).toNat = n % 256 := by simp
    rw [bigEndian, ofBigEndian_concat, ih hhigh, hlow]
    omega

/-! ## Values -/

def uint (n : Nat) : List UInt8 :=
  if n < 0x80 then [UInt8.ofNat n]
  else if n < 2 ^ 8 then 0xcc :: bigEndian 1 n
  else if n < 2 ^ 16 then 0xcd :: bigEndian 2 n
  else if n < 2 ^ 32 then 0xce :: bigEndian 4 n
  else 0xcf :: bigEndian 8 n

def nil : List UInt8 := [0xc0]

def bool (b : Bool) : List UInt8 := [if b then 0xc3 else 0xc2]

def strHeader (n : Nat) : List UInt8 :=
  if n < 32 then [UInt8.ofNat (0xa0 + n)]
  else if n < 2 ^ 8 then 0xd9 :: bigEndian 1 n
  else if n < 2 ^ 16 then 0xda :: bigEndian 2 n
  else 0xdb :: bigEndian 4 n

def str (s : String) : List UInt8 := strHeader s.utf8ByteSize ++ s.toUTF8.data.toList

def binHeader (n : Nat) : List UInt8 :=
  if n < 2 ^ 8 then 0xc4 :: bigEndian 1 n
  else if n < 2 ^ 16 then 0xc5 :: bigEndian 2 n
  else 0xc6 :: bigEndian 4 n

def bin (bytes : List UInt8) : List UInt8 := binHeader bytes.length ++ bytes

def arrayHeader (n : Nat) : List UInt8 :=
  if n < 16 then [UInt8.ofNat (0x90 + n)]
  else if n < 2 ^ 16 then 0xdc :: bigEndian 2 n
  else 0xdd :: bigEndian 4 n

/-- An array of encoded items. -/
def array (items : List (List UInt8)) : List UInt8 := arrayHeader items.length ++ items.flatten

/-- A map with one entry. -/
def entry (key value : List UInt8) : List UInt8 := 0x81 :: (key ++ value)

/-- A byte string as an array of integers. -/
def octets (bytes : List UInt8) : List UInt8 := array (bytes.map fun b => uint b.toNat)

/-! ## Lengths -/

def uintSize (n : Nat) : Nat :=
  if n < 0x80 then 1
  else if n < 2 ^ 8 then 2
  else if n < 2 ^ 16 then 3
  else if n < 2 ^ 32 then 5
  else 9

def strHeaderSize (n : Nat) : Nat :=
  if n < 32 then 1 else if n < 2 ^ 8 then 2 else if n < 2 ^ 16 then 3 else 5

def binHeaderSize (n : Nat) : Nat := if n < 2 ^ 8 then 2 else if n < 2 ^ 16 then 3 else 5

def arrayHeaderSize (n : Nat) : Nat := if n < 16 then 1 else if n < 2 ^ 16 then 3 else 5

@[simp] theorem length_uint (n : Nat) : (uint n).length = uintSize n := by
  unfold uint uintSize
  repeat' split
  all_goals simp

@[simp] theorem length_bool (b : Bool) : (bool b).length = 1 := rfl

@[simp] theorem length_strHeader (n : Nat) : (strHeader n).length = strHeaderSize n := by
  unfold strHeader strHeaderSize
  repeat' split
  all_goals simp

def strSize (s : String) : Nat := strHeaderSize s.utf8ByteSize + s.utf8ByteSize

@[simp] theorem length_str (s : String) : (str s).length = strSize s := by
  have hlen : s.toUTF8.data.toList.length = s.utf8ByteSize := rfl
  rw [str, List.length_append, length_strHeader, hlen, strSize]

@[simp] theorem length_binHeader (n : Nat) : (binHeader n).length = binHeaderSize n := by
  unfold binHeader binHeaderSize
  repeat' split
  all_goals simp

@[simp] theorem length_arrayHeader (n : Nat) : (arrayHeader n).length = arrayHeaderSize n := by
  unfold arrayHeader arrayHeaderSize
  repeat' split
  all_goals simp

@[simp] theorem length_array (items : List (List UInt8)) :
    (array items).length = arrayHeaderSize items.length + (items.map List.length).sum := by
  simp [array]

@[simp] theorem length_entry (key value : List UInt8) :
    (entry key value).length = 1 + key.length + value.length := by
  simp only [entry, List.length_cons, List.length_append]
  omega

theorem uintSize_le (n : Nat) : uintSize n ≤ 9 := by
  unfold uintSize
  repeat' split
  all_goals omega

theorem arrayHeaderSize_le (n : Nat) : arrayHeaderSize n ≤ 5 := by
  unfold arrayHeaderSize
  repeat' split
  all_goals omega

theorem binHeaderSize_le (n : Nat) : binHeaderSize n ≤ 5 := by
  unfold binHeaderSize
  repeat' split
  all_goals omega

theorem uintSize_byte (b : UInt8) : uintSize b.toNat = if 0x80 ≤ b then 2 else 1 := by
  have hlt : b.toNat < 2 ^ 8 := b.toNat_lt
  have hle : (0x80 : UInt8) ≤ b ↔ 0x80 ≤ b.toNat := UInt8.le_iff_toNat_le
  unfold uintSize
  by_cases h : 0x80 ≤ b.toNat
  · rw [if_neg (by omega), if_pos hlt, if_pos (hle.mpr h)]
  · rw [if_pos (by omega), if_neg (fun hb => h (hle.mp hb))]

/-- One byte for each byte, and one more for each from `0x80` on. -/
@[simp] theorem length_octets (bytes : List UInt8) :
    (octets bytes).length =
      arrayHeaderSize bytes.length + (bytes.length + bytes.countP (0x80 ≤ ·)) := by
  have hsum : (bytes.map fun b => uintSize b.toNat).sum =
      bytes.length + bytes.countP (0x80 ≤ ·) := by
    induction bytes with
    | nil => rfl
    | cons b bytes ih =>
      rw [List.map_cons, List.sum_cons, ih, uintSize_byte, List.countP_cons, List.length_cons]
      by_cases h : 0x80 ≤ b
      · simp only [h, if_true, decide_true]
        omega
      · simp only [h, if_false, decide_false, Bool.false_eq_true]
        omega
  rw [octets, length_array, List.length_map, List.map_map, ← hsum]
  simp [Function.comp_def]

theorem length_octets_le (bytes : List UInt8) : (octets bytes).length ≤ 5 + 2 * bytes.length := by
  have hheader := arrayHeaderSize_le bytes.length
  have hcount := List.countP_le_length (p := (0x80 ≤ ·)) (l := bytes)
  rw [length_octets]
  omega

end MsgPack
