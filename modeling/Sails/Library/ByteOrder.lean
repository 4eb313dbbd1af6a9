import Sails.Library.CMemory

/-!
# 32-bit words in memory

- `Endian.object`, `Endian.load`: the four bytes of a word object on a host of either byte order
- `Endian.htonl`, `Endian.ntohl`: conversion to and from network order
- `bigEndian`: the bytes of a word in network order, which is what a converted word's object
  consists of on every host
-/

namespace CMemory

/-- The byte order of the machine. -/
inductive Endian where
  | little
  | big
  deriving DecidableEq, Repr

/-- The bytes of a word, most significant first. -/
def bigEndian (w : UInt32) : Bytes :=
  [.ofNat (w.toNat / 2 ^ 24), .ofNat (w.toNat / 2 ^ 16), .ofNat (w.toNat / 2 ^ 8), .ofNat w.toNat]

/-- The word whose bytes, most significant first, these are. -/
def ofBigEndian (bs : Bytes) : UInt32 := .ofNat (bs.foldl (fun n c => n * 2 ^ 8 + c.toNat) 0)

@[simp] theorem length_bigEndian (w : UInt32) : (bigEndian w).length = 4 := rfl

@[simp] theorem ofBigEndian_bigEndian (w : UInt32) : ofBigEndian (bigEndian w) = w := by
  have hw : w.toNat < 2 ^ 32 := w.toNat_lt
  apply UInt32.toNat_inj.mp
  simp only [ofBigEndian, bigEndian, List.foldl, UInt32.toNat_ofNat', UInt8.toNat_ofNat']
  omega

theorem bigEndian_ofBigEndian (a b c d : UInt8) :
    bigEndian (ofBigEndian [a, b, c, d]) = [a, b, c, d] := by
  have ha := a.toNat_lt
  have hb := b.toNat_lt
  have hc := c.toNat_lt
  have hd := d.toNat_lt
  have hword : (ofBigEndian [a, b, c, d]).toNat =
      a.toNat * 2 ^ 24 + b.toNat * 2 ^ 16 + c.toNat * 2 ^ 8 + d.toNat := by
    simp only [ofBigEndian, List.foldl, UInt32.toNat_ofNat']
    omega
  simp only [bigEndian, hword, List.cons.injEq, ← UInt8.toNat_inj, UInt8.toNat_ofNat', and_true]
  omega

namespace Endian

/-- The bytes of the object that holds `w`, in the order of their addresses. -/
def object : Endian → UInt32 → Bytes
  | little, w => (bigEndian w).reverse
  | big, w => bigEndian w

/-- The word an object of these four bytes holds. -/
def load : Endian → Bytes → UInt32
  | little, bs => ofBigEndian bs.reverse
  | big, bs => ofBigEndian bs

/-- The word with the order of its bytes turned round. -/
def byteSwap (w : UInt32) : UInt32 := ofBigEndian (bigEndian w).reverse

/-- `htonl`. -/
def htonl : Endian → UInt32 → UInt32
  | little, w => byteSwap w
  | big, w => w

/-- `ntohl`. -/
def ntohl : Endian → UInt32 → UInt32
  | little, w => byteSwap w
  | big, w => w

theorem bigEndian_byteSwap (w : UInt32) : bigEndian (byteSwap w) = (bigEndian w).reverse :=
  bigEndian_ofBigEndian ..

@[simp] theorem byteSwap_byteSwap (w : UInt32) : byteSwap (byteSwap w) = w := by
  rw [byteSwap, bigEndian_byteSwap, List.reverse_reverse, ofBigEndian_bigEndian]

/-- The object of a word in network order. -/
theorem object_htonl (e : Endian) (w : UInt32) : e.object (e.htonl w) = bigEndian w := by
  cases e with
  | little => rw [object, htonl, bigEndian_byteSwap, List.reverse_reverse]
  | big => rfl

/-- Reading bytes in network order and converting gives the word back, on every host. -/
theorem ntohl_load_bigEndian (e : Endian) (w : UInt32) : e.ntohl (e.load (bigEndian w)) = w := by
  cases e with
  | little =>
    have hload : load little (bigEndian w) = byteSwap w := rfl
    rw [hload, ntohl, byteSwap_byteSwap]
  | big => exact ofBigEndian_bigEndian w

end Endian

end CMemory
