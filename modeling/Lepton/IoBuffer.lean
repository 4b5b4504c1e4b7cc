import Lepton.Words
import Lepton.Search

/-! `IOBuffer`: a handle on a pooled buffer, with the payload at `head`, of `len` bytes. The two
counters are 64-bit words that no operation checks outside debug builds, so a handle can be driven
out of its buffer; `Fits` says that it is not, and then the payload is a list of bytes on which the
operations are the ones their names say. -/

namespace Lepton

open Words Search

variable {data mem : List UInt8} {pos : Nat}

structure IoBuffer where
  /-- The pool buffer behind the handle, if any. -/
  base : Option Nat := none
  cap : Nat := 0
  head : Nat := 0
  len : Nat := 0
  mem : List UInt8 := []
  deriving DecidableEq, Repr

/-- A call of the buffer pool: `acquire` with its answer, or `release` of a buffer. -/
inductive PoolCall where
  | acquired (id : Option Nat)
  | released (id : Nat)
  deriving DecidableEq, Repr

/-- `memcpy` into a buffer. -/
def put (mem : List UInt8) (pos : Nat) (data : List UInt8) : List UInt8 :=
  mem.take pos ++ data ++ mem.drop (pos + data.length)

namespace IoBuffer

def bytes (b : IoBuffer) : List UInt8 := slice b.mem b.head b.len

def tailroom (b : IoBuffer) : Nat := sub (sub b.cap b.head) b.len

/-- `append`, and the copy into the span it returns. -/
def append (b : IoBuffer) (data : List UInt8) : IoBuffer :=
  { b with mem := put b.mem (b.head + b.len) data, len := add b.len data.length }

/-- `prepend`, and the copy into the span it returns. -/
def prepend (b : IoBuffer) (data : List UInt8) : IoBuffer :=
  { b with
    mem := put b.mem (sub b.head data.length) data
    head := sub b.head data.length
    len := add b.len data.length }

def consume (b : IoBuffer) (n : Nat) : IoBuffer := { b with head := add b.head n, len := sub b.len n }

def reset (b : IoBuffer) (reserveFront : Nat) : IoBuffer := { b with head := reserveFront, len := 0 }

/-- The payload rewritten in place. -/
def rewrite (b : IoBuffer) (f : List UInt8 → List UInt8) : IoBuffer :=
  { b with mem := put b.mem b.head (f b.bytes) }

/-- The payload moved to the front of the buffer. -/
def moveToFront (b : IoBuffer) : IoBuffer :=
  { b with mem := put b.mem 0 b.bytes, head := 0, len := b.len }

/-- A buffer as the pool hands it out. -/
def blank (id cap reserveFront : Nat) : IoBuffer :=
  { base := some id, cap := cap, head := reserveFront, len := 0, mem := List.replicate cap 0 }

/-- The calls behind `pool_.release(b)`: none for the null handle. -/
def released (b : IoBuffer) : List PoolCall := (b.base.map PoolCall.released).toList

/-- `pool_.release(b)`, which clears the handle. -/
def release (b : IoBuffer) : IoBuffer := if b.base.isSome then {} else b

/-- The handle describes its buffer, wherever the counters point. -/
structure Backed (b : IoBuffer) : Prop where
  size : b.mem.length = b.cap
  small : b.cap < 2 ^ 63

/-- The payload lies inside the buffer. -/
structure Fits (b : IoBuffer) : Prop where
  inside : b.head + b.len ≤ b.cap
  backed : b.mem.length = b.cap
  small : b.cap < 2 ^ 63

end IoBuffer

theorem length_put (h : pos + data.length ≤ mem.length) :
    (put mem pos data).length = mem.length := by
  simp only [put, List.length_append, List.length_take, List.length_drop]
  omega

theorem slice_put (h : pos + data.length ≤ mem.length) :
    slice (put mem pos data) pos data.length = data := by
  have hpos : (mem.take pos).length = pos := List.length_take_of_le (by omega)
  rw [slice, put, List.append_assoc, List.drop_left' hpos, List.take_left]

theorem slice_put_before {start n : Nat} (h : pos ≤ mem.length) (hn : start + n ≤ pos) :
    slice (put mem pos data) start n = slice mem start n := by
  have hpos : (mem.take pos).length = pos := List.length_take_of_le h
  rw [slice, put, List.append_assoc, List.drop_append_of_le_length (by omega),
    List.take_append_of_le_length (by rw [List.length_drop, hpos]; omega), List.drop_take, List.take_take,
    Nat.min_eq_left (by omega), slice]

theorem slice_put_after {start n : Nat} (h : pos + data.length ≤ mem.length)
    (hstart : pos + data.length ≤ start) : slice (put mem pos data) start n = slice mem start n := by
  have hpos : (mem.take pos ++ data).length = pos + data.length := by
    rw [List.length_append, List.length_take_of_le (by omega)]
  rw [slice, put, List.drop_append, hpos, List.drop_eq_nil_of_le (by omega), List.nil_append, List.drop_drop,
    Nat.add_sub_cancel' hstart, slice]

theorem getElem?_put (h : pos + data.length ≤ mem.length) (j : Nat) :
    (put mem pos data)[j]? = if pos ≤ j ∧ j < pos + data.length then data[j - pos]? else mem[j]? := by
  have hpos : (mem.take pos).length = pos := List.length_take_of_le (by omega)
  rw [put, List.append_assoc, List.getElem?_append, hpos]
  split
  · next hbefore =>
    rw [if_neg (by omega), List.getElem?_take_of_lt hbefore]
  · next hbefore =>
    rw [List.getElem?_append]
    split
    · next hin => rw [if_pos (by omega)]
    · next hbehind =>
      have hindex : pos + data.length + (j - pos - data.length) = j := by omega
      rw [if_neg (by omega), List.getElem?_drop, hindex]

/-- What is written behind what was written. -/
theorem put_put {xs ys : List UInt8} (h : pos + xs.length ≤ mem.length) :
    put (put mem pos xs) (pos + xs.length) ys = put mem pos (xs ++ ys) := by
  have hfront : (mem.take pos ++ xs).length = pos + xs.length := by
    rw [List.length_append, List.length_take_of_le (by omega)]
  have hdrop : (put mem pos xs).drop (pos + xs.length + ys.length) = mem.drop (pos + (xs ++ ys).length) := by
    rw [put, List.drop_append, hfront, List.drop_eq_nil_of_le (by omega), List.nil_append, List.drop_drop,
      List.length_append]
    congr 1
    omega
  rw [put, hdrop, put, List.take_left' hfront, put, List.append_assoc (mem.take pos)]

namespace IoBuffer

variable {b : IoBuffer}

theorem Fits.length_bytes (h : b.Fits) : b.bytes.length = b.len := by
  have := h.inside
  have := h.backed
  rw [bytes, slice, List.length_take, List.length_drop]
  omega

theorem Fits.tailroom_eq (h : b.Fits) : b.tailroom = b.cap - b.head - b.len := by
  have := h.inside
  have := h.small
  have hsize : wordSize = 2 ^ 64 := rfl
  have hhead : sub b.cap b.head = b.cap - b.head := sub_of_le (by omega) (by omega)
  rw [tailroom, hhead, sub_of_le (by omega) (by omega)]

theorem fits_blank {id cap reserveFront : Nat} (hfront : reserveFront ≤ cap) (hcap : cap < 2 ^ 63) :
    (blank id cap reserveFront).Fits := ⟨hfront, List.length_replicate, hcap⟩

theorem fits_empty : Fits {} := ⟨Nat.zero_le _, rfl, by decide⟩

theorem base_release (b : IoBuffer) : b.release.base = none := by
  unfold release
  split
  · rfl
  · next h => exact Option.not_isSome_iff_eq_none.mp h

theorem Fits.release {b : IoBuffer} (h : b.Fits) : b.release.Fits := by
  unfold IoBuffer.release
  split
  · exact fits_empty
  · exact h

theorem bytes_blank (id cap reserveFront : Nat) : (blank id cap reserveFront).bytes = [] := rfl

theorem Backed.reset (h : b.Backed) : (b.reset 0).Fits := ⟨Nat.zero_le _, h.size, h.small⟩

theorem bytes_reset (b : IoBuffer) (n : Nat) : (b.reset n).bytes = [] := rfl

theorem Backed.consume (h : b.Backed) (n : Nat) : (b.consume n).Backed := ⟨h.size, h.small⟩

theorem Backed.moveToFront (h : b.Backed) : b.moveToFront.Backed := by
  have hbytes : b.bytes.length ≤ b.mem.length - b.head := by
    rw [bytes, slice, List.length_take, List.length_drop]
    exact Nat.min_le_right _ _
  have hput : 0 + b.bytes.length ≤ b.mem.length := by omega
  exact ⟨(length_put hput).trans h.size, h.small⟩

theorem Fits.append (h : b.Fits) (hdata : data.length ≤ b.tailroom) :
    (b.append data).Fits ∧ (b.append data).bytes = b.bytes ++ data := by
  have hin := h.inside
  have hback := h.backed
  have hsmall := h.small
  have hsize : wordSize = 2 ^ 64 := rfl
  rw [h.tailroom_eq] at hdata
  have hlen : add b.len data.length = b.len + data.length := add_of_lt (by omega)
  have hput : b.head + b.len + data.length ≤ b.mem.length := by omega
  refine ⟨⟨?_, ?_, hsmall⟩, ?_⟩
  · change b.head + add b.len data.length ≤ b.cap
    omega
  · exact (length_put hput).trans hback
  · change slice (put b.mem (b.head + b.len) data) b.head (add b.len data.length) = _
    rw [hlen, slice_add, slice_put_before (by omega) (Nat.le_refl _), slice_put hput]
    rfl

theorem Fits.prepend (h : b.Fits) (hdata : data.length ≤ b.head) :
    (b.prepend data).Fits ∧ (b.prepend data).bytes = data ++ b.bytes := by
  have hin := h.inside
  have hback := h.backed
  have hsmall := h.small
  have hsize : wordSize = 2 ^ 64 := rfl
  have hlen : add b.len data.length = data.length + b.len := by rw [add_of_lt (by omega), Nat.add_comm]
  have hhead : sub b.head data.length = b.head - data.length := sub_of_le (by omega) hdata
  have hput : b.head - data.length + data.length ≤ b.mem.length := by omega
  refine ⟨⟨?_, ?_, hsmall⟩, ?_⟩
  · change sub b.head data.length + add b.len data.length ≤ b.cap
    omega
  · change (put b.mem (sub b.head data.length) data).length = b.cap
    rw [hhead, length_put hput, hback]
  · change slice (put b.mem (sub b.head data.length) data) (sub b.head data.length) (add b.len data.length) = _
    rw [hhead, hlen, slice_add, slice_put hput, slice_put_after hput (Nat.le_refl _), Nat.sub_add_cancel hdata]
    rfl

theorem Fits.consume (h : b.Fits) {n : Nat} (hn : n ≤ b.len) :
    (b.consume n).Fits ∧ (b.consume n).bytes = b.bytes.drop n := by
  have hin := h.inside
  have hsmall := h.small
  have hsize : wordSize = 2 ^ 64 := rfl
  have hhead : add b.head n = b.head + n := add_of_lt (by omega)
  have hlen : sub b.len n = b.len - n := sub_of_le (by omega) hn
  refine ⟨⟨?_, h.backed, hsmall⟩, ?_⟩
  · change add b.head n + sub b.len n ≤ b.cap
    omega
  · change slice b.mem (add b.head n) (sub b.len n) = (slice b.mem b.head b.len).drop n
    rw [hhead, hlen, slice, slice, List.drop_take, List.drop_drop]

theorem Fits.rewrite (h : b.Fits) {f : List UInt8 → List UInt8} (hf : (f b.bytes).length = b.bytes.length) :
    (b.rewrite f).Fits ∧ (b.rewrite f).bytes = f b.bytes := by
  have hin := h.inside
  have hback := h.backed
  rw [h.length_bytes] at hf
  have hput : b.head + (f b.bytes).length ≤ b.mem.length := by omega
  refine ⟨⟨hin, (length_put hput).trans hback, h.small⟩, ?_⟩
  have hslice := slice_put hput
  rw [hf] at hslice
  exact hslice

theorem Fits.moveToFront (h : b.Fits) : b.moveToFront.Fits ∧ b.moveToFront.bytes = b.bytes := by
  have hin := h.inside
  have hback := h.backed
  have hlen := h.length_bytes
  have hput : 0 + b.bytes.length ≤ b.mem.length := by omega
  refine ⟨⟨?_, (length_put hput).trans hback, h.small⟩, ?_⟩
  · change 0 + b.len ≤ b.cap
    omega
  · have hslice := slice_put hput
    rw [hlen] at hslice
    exact hslice

end IoBuffer

end Lepton
