import Lepton.Lanes
import Lepton.Words
import Lepton.PoolStack

/-! The memory of the pool. The constructor maps one arena for all the buffers, touches every page of it and links the
buffers through their first four bytes. The sizes are 64-bit words, and `count * buf_size` is not checked; where it does
not wrap the constructor stays inside of what it has mapped and leaves the state in which the model of the free list
begins. From there on the bytes of the arena follow that model, and a buffer that is out is touched by its owner only. -/

namespace Lepton.Pool

open Words Lanes

/-! ### The arena -/

/-- A mapping: its size, and its bytes. -/
structure Arena where
  size : Nat
  mem : Nat → UInt8

/-- The 32-bit word at a place. -/
def read32 (mem : Nat → UInt8) (pos : Nat) : Nat := leNat [mem pos, mem (pos + 1), mem (pos + 2), mem (pos + 3)]

def write32 (mem : Nat → UInt8) (pos val : Nat) : Nat → UInt8 := fun j =>
  if pos ≤ j ∧ j < pos + 4 then UInt8.ofNat (val / 256 ^ (j - pos)) else mem j

/-- A byte is stored, unless it lies outside of the mapping. -/
def Arena.poke (a : Arena) (pos : Nat) (byte : UInt8) : Option Arena :=
  if pos < a.size then some { a with mem := Function.update a.mem pos byte } else none

/-- `node->next_idx = val`. -/
def Arena.store (a : Arena) (pos val : Nat) : Option Arena :=
  if pos + 4 ≤ a.size then some { a with mem := write32 a.mem pos val } else none

/-! ### The constructor -/

/-- `buf_size_{(buf_size + 63) & ~63}`. -/
def stride (bufSize : Nat) : Nat := add bufSize 63 &&& (wordSize - 64)

def hugepageSize : Nat := 2 * 1024 * 1024

/-- `(total + hugepage_size - 1) & ~(hugepage_size - 1)`. -/
def hugeTotal (total : Nat) : Nat := sub (add total hugepageSize) 1 &&& (wordSize - hugepageSize)

/-- The size that is mapped, if the kernel maps it; `maps` is the kernel, and the flag asks for huge pages. -/
def allocate (maps : Nat → Bool → Bool) (total : Nat) (hugepage : Bool) : Option Nat :=
  if hugepage = true ∧ maps (hugeTotal total) true = true then some (hugeTotal total)
  else if maps total false = true then some total else none

/-- Every page is touched. A loop that goes on longer than the fuel does not end. -/
def warm : Nat → Nat → Arena → Option Arena
  | 0, _, _ => none
  | fuel + 1, offset, a => if offset < a.size then (a.poke offset 0).bind (warm fuel (add offset 4096)) else some a

/-- The loop that links each buffer but the last to the next one. -/
def linkAll (bufSize last : Nat) : Nat → Nat → Arena → Option Arena
  | 0, _, _ => none
  | fuel + 1, i, a =>
    if i < last then (a.store (i * bufSize % wordSize) ((i + 1) % 2 ^ 32)).bind (linkAll bufSize last fuel (i + 1))
    else some a

structure BufferPool where
  bufSize : Nat
  count : Nat
  arena : Option Arena
  headFreeVal : Nat
  available : Nat

/-- The constructor, with the mapping filled with zeros. It has no result if it stores outside of the mapping. -/
def bufferPool (maps : Nat → Bool → Bool) (count bufSize : Nat) (hugepage : Bool) : Option BufferPool :=
  let bufSize := stride bufSize
  match allocate maps (count * bufSize % wordSize) hugepage with
  | none => some { bufSize, count, arena := none, headFreeVal := listEnd, available := 0 }
  | some size =>
    ((warm (size / 4096 + 2) 0 ⟨size, fun _ => 0⟩).bind fun a =>
      (if 0 < size then a.poke (size - 1) 0 else some a).bind fun a =>
      (linkAll bufSize (sub count 1) (sub count 1 + 1) 0 a).bind fun a =>
      a.store (sub count 1 * bufSize % wordSize) listEnd).map
    fun a => { bufSize, count, arena := some a, headFreeVal := 0, available := count }

/-! ### Sizes -/

/-- Clearing the low bits of a word rounds it down. -/
theorem land_clear {n k : Nat} (hn : n < wordSize) (hk : k ≤ 64) : n &&& (wordSize - 2 ^ k) = n - n % 2 ^ k := by
  have hmask : wordSize - 2 ^ k = 2 ^ k * (2 ^ (64 - k) - 1) := by
    rw [Nat.mul_sub, ← Nat.pow_add, Nat.add_sub_cancel' hk, Nat.mul_one, wordSize]
  have hdown : n - n % 2 ^ k = 2 ^ k * (n / 2 ^ k) := by
    have := Nat.div_add_mod n (2 ^ k)
    omega
  rw [hmask, hdown]
  apply Nat.eq_of_testBit_eq
  intro i
  rw [Nat.testBit_and, Nat.testBit_two_pow_mul, Nat.testBit_two_pow_mul, Nat.testBit_two_pow_sub_one, Nat.testBit_div_two_pow]
  by_cases hi : k ≤ i
  · rw [Nat.sub_add_cancel hi]
    by_cases hlt : i < 64
    · simp [hi, show i - k < 64 - k by omega]
    · have hzero : n.testBit i = false := Nat.testBit_lt_two_pow (hn.trans_le (Nat.pow_le_pow_right (by decide) (by omega)))
      simp [hzero]
  · simp [hi]

theorem stride_eq (bufSize : Nat) :
    stride bufSize = add bufSize 63 - add bufSize 63 % 64 := land_clear (k := 6) (add_lt _ _) (by decide)

theorem stride_spec {bufSize : Nat} (h : bufSize < wordSize) (hpos : 0 < stride bufSize) :
    bufSize ≤ stride bufSize ∧ 64 ≤ stride bufSize ∧ stride bufSize % 64 = 0 ∧ stride bufSize < wordSize := by
  rw [stride_eq] at hpos ⊢
  unfold add wordSize at hpos ⊢
  unfold wordSize at h
  omega

/-- Rounding up to huge pages gives enough, or nothing. -/
theorem hugeTotal_spec {total : Nat} (h : total < wordSize) : hugeTotal total = 0 ∨ total ≤ hugeTotal total := by
  have hsub : sub (add total hugepageSize) 1 = (total + (hugepageSize - 1)) % wordSize := by
    unfold sub add hugepageSize wordSize
    unfold wordSize at h
    omega
  have hround : hugeTotal total = (total + (hugepageSize - 1)) % wordSize
      - (total + (hugepageSize - 1)) % wordSize % 2 ^ 21 := by
    rw [hugeTotal, hsub]
    exact land_clear (k := 21) (Nat.mod_lt _ (by decide)) (by decide)
  rw [hround]
  unfold hugepageSize wordSize
  unfold wordSize at h
  omega

/-- The kernel maps no empty range, and no range larger than an object may be. -/
def Maps (maps : Nat → Bool → Bool) : Prop := ∀ size huge, maps size huge = true → 0 < size ∧ size < 2 ^ 63

theorem allocate_spec {maps : Nat → Bool → Bool} {total size : Nat} {hugepage : Bool} (hmaps : Maps maps)
    (htotal : total < wordSize) (h : allocate maps total hugepage = some size) :
    0 < total ∧ total ≤ size ∧ size < 2 ^ 63 := by
  unfold allocate at h
  split at h
  · next hhuge =>
    cases h
    obtain ⟨hpos, hlt⟩ := hmaps _ _ hhuge.2
    have hle := (hugeTotal_spec htotal).resolve_left (by omega)
    refine ⟨Nat.pos_of_ne_zero fun hzero => ?_, hle, hlt⟩
    have hnone : hugeTotal 0 = 0 := by decide
    rw [hzero, hnone] at hpos
    exact absurd hpos (Nat.lt_irrefl 0)
  · split at h
    · next hplain =>
      cases h
      obtain ⟨hpos, hlt⟩ := hmaps _ _ hplain
      exact ⟨hpos, Nat.le_refl _, hlt⟩
    · cases h

/-! ### Words of the arena -/

theorem read32_write32 (mem : Nat → UInt8) (pos : Nat) {val : Nat} (h : val < 2 ^ 32) :
    read32 (write32 mem pos val) pos = val := by
  have hbyte {k : Nat} (hk : k < 4) : write32 mem pos val (pos + k) = UInt8.ofNat (val / 256 ^ k) := by
    rw [write32, if_pos ⟨Nat.le_add_right _ _, Nat.add_lt_add_left hk _⟩, Nat.add_sub_cancel_left]
  have h0 := hbyte (k := 0) (by decide)
  rw [Nat.add_zero] at h0
  rw [read32, h0, hbyte (by decide : 1 < 4), hbyte (by decide : 2 < 4), hbyte (by decide : 3 < 4)]
  simp only [leNat, UInt8.toNat_ofNat']
  omega

theorem read32_congr {mem mem' : Nat → UInt8} {pos : Nat} (h : ∀ k, k < 4 → mem' (pos + k) = mem (pos + k)) :
    read32 mem' pos = read32 mem pos := by
  have h0 := h 0 (by decide)
  rw [Nat.add_zero] at h0
  rw [read32, read32, h0, h 1 (by decide), h 2 (by decide), h 3 (by decide)]

theorem write32_of_apart {mem : Nat → UInt8} {pos val j : Nat} (h : j < pos ∨ pos + 4 ≤ j) :
    write32 mem pos val j = mem j := if_neg (by omega)

/-- Two buffers have no byte in common. -/
theorem buffers_apart {b i j k l : Nat} (hij : i ≠ j) (hk : k < b) (hl : l < b) : i * b + k ≠ j * b + l := by
  intro heq
  have hdiv {i k : Nat} (hk : k < b) : (i * b + k) / b = i := by
    rw [Nat.mul_comm, Nat.mul_add_div (by omega), Nat.div_eq_of_lt hk, Nat.add_zero]
  exact hij ((hdiv hk).symm.trans ((congrArg (· / b) heq).trans (hdiv hl)))

/-- The link of one buffer is not that of another. -/
theorem read32_write32_of_ne (mem : Nat → UInt8) {b i j : Nat} (hb : 4 ≤ b) (hij : i ≠ j) (val : Nat) :
    read32 (write32 mem (i * b) val) (j * b) = read32 mem (j * b) := by
  refine read32_congr fun k hk => write32_of_apart ?_
  by_contra hin
  obtain ⟨hlow, hhigh⟩ : i * b ≤ j * b + k ∧ j * b + k < i * b + 4 := by omega
  exact buffers_apart hij (by omega : j * b + k - i * b < b) (by omega : k < b) (by omega)

/-! ### The loops of the constructor -/

theorem warm_eq {size fuel offset : Nat} (hsize : size < 2 ^ 63) (hfuel : (size + 4095 - offset) / 4096 < fuel)
    (hoffset : offset < size + 4096) :
    warm fuel offset ⟨size, fun _ => 0⟩ = some ⟨size, fun _ => 0⟩ := by
  induction fuel generalizing offset with
  | zero => exact absurd hfuel (Nat.not_lt_zero _)
  | succ fuel ih =>
    rw [warm]
    split
    · next hin =>
      have hin' : offset < size := hin
      have hnext : add offset 4096 = offset + 4096 := add_of_lt (by unfold wordSize; omega)
      have hpoke : Arena.poke ⟨size, fun _ => 0⟩ offset 0 = some ⟨size, fun _ => 0⟩ := by
        rw [Arena.poke, if_pos hin, Function.update_eq_self_iff.mpr rfl]
      rw [hpoke, Option.bind_some, hnext]
      exact ih (by omega) (by omega)
    · rfl

/-- Where no product wraps, the loop links each buffer to the next. -/
theorem linkAll_spec {b last fuel i : Nat} {a : Arena} (hb : 4 ≤ b) (hfuel : last - i < fuel)
    (hsize : ∀ j, j < last → j * b + 4 ≤ a.size) (hword : last * b < wordSize) :
    ∃ mem, linkAll b last fuel i a = some { a with mem } ∧
      ∀ j, read32 mem (j * b) = if i ≤ j ∧ j < last then (j + 1) % 2 ^ 32 else read32 a.mem (j * b) := by
  induction fuel generalizing i a with
  | zero => exact absurd hfuel (Nat.not_lt_zero _)
  | succ fuel ih =>
    rw [linkAll]
    split
    · next hi =>
      have hpos : i * b % wordSize = i * b :=
        Nat.mod_eq_of_lt ((Nat.mul_le_mul_right b (Nat.le_of_lt hi)).trans_lt hword)
      rw [hpos, Arena.store, if_pos (hsize i hi), Option.bind_some]
      have hless : last - (i + 1) < fuel := by omega
      obtain ⟨mem, hrest, hread⟩ := ih (a := { a with mem := write32 a.mem (i * b) ((i + 1) % 2 ^ 32) }) hless hsize
      refine ⟨mem, hrest, fun j => ?_⟩
      rw [hread j]
      by_cases hij : i = j
      · subst hij
        rw [if_neg (by omega), if_pos ⟨Nat.le_refl _, hi⟩, read32_write32 _ _ (Nat.mod_lt _ (by decide))]
      · rw [read32_write32_of_ne _ hb hij]
        exact if_congr (by omega) rfl rfl
    · next hi => exact ⟨a.mem, rfl, fun j => by rw [if_neg (by omega)]⟩

/-- A store outside of the mapping ends the loop. -/
theorem linkAll_none {b last fuel i j : Nat} {a : Arena} (hij : i ≤ j) (hj : j < last)
    (hout : a.size < j * b % wordSize + 4) : linkAll b last fuel i a = none := by
  induction fuel generalizing i a with
  | zero => rfl
  | succ fuel ih =>
    rw [linkAll, if_pos (hij.trans_lt hj), Arena.store]
    split
    · next hin =>
      rw [Option.bind_some]
      refine ih (Nat.lt_of_le_of_ne hij fun heq => ?_) hout
      subst heq
      exact absurd hin (Nat.not_le.mpr hout)
    · rfl

theorem linkAll_size {b last fuel i : Nat} {a a' : Arena} (h : linkAll b last fuel i a = some a') : a'.size = a.size := by
  induction fuel generalizing i a with
  | zero => cases h
  | succ fuel ih =>
    rw [linkAll] at h
    split at h
    · unfold Arena.store at h
      split at h
      · rw [Option.bind_some] at h
        have hrest := ih h
        exact hrest
      · cases h
    · cases h
      rfl

/-- The links of a new pool lead from each buffer to the next one, up to the last index that is not negative. -/
theorem walk_links {next : Nat → Nat} {count : Nat} (hcount : 1 ≤ count)
    (hnext : ∀ i < count, next i = if i + 1 < count then (i + 1) % 2 ^ 32 else listEnd) {fuel : Nat} (hfuel : count ≤ fuel) :
    walk next fuel 0 = List.range (min count (2 ^ 31)) := by
  have hchain (n i : Nat) (hi : i + n + 1 = min count (2 ^ 31)) : Chain next i (List.range' i (n + 1)) := by
    induction n generalizing i with
    | zero =>
      have hneg : Negative (next i) := by
        rw [hnext i (by omega), Negative]
        split
        · omega
        · decide
      exact ⟨rfl, by rw [Negative]; omega, hneg⟩
    | succ n ih =>
      have hlink : next i = i + 1 := by
        rw [hnext i (by omega), if_pos (by omega), Nat.mod_eq_of_lt (by omega)]
      exact ⟨rfl, by rw [Negative]; omega, hlink ▸ ih (i + 1) (by omega)⟩
  have hall := hchain (min count (2 ^ 31) - 1) 0 (by omega)
  rw [Nat.sub_add_cancel (by omega : 1 ≤ min count (2 ^ 31)), ← List.range_eq_range'] at hall
  exact walk_of_chain hall (by rw [List.length_range]; omega)

/-- What a pool without an arena, or the arena of a new pool, looks like. -/
structure Begins (count bufSize : Nat) (p : BufferPool) : Prop where
  /-- A pool without memory has nothing to hand out. -/
  unmapped : p.arena = none → Negative (idxOf p.headFreeVal) ∧ p.available = 0
  some_buffer : p.arena.isSome → 1 ≤ count
  room : p.arena.isSome → bufSize ≤ p.bufSize ∧ 64 ≤ p.bufSize ∧ p.bufSize % 64 = 0
  inside : ∀ a, p.arena = some a → count * p.bufSize ≤ a.size
  head : p.arena.isSome → p.headFreeVal = 0 ∧ p.available = count
  links : ∀ a, p.arena = some a → ∀ i < count,
    read32 a.mem (i * p.bufSize) = if i + 1 < count then (i + 1) % 2 ^ 32 else listEnd
  /-- Walked to its end, the free list is all the buffers, as far as an index is not negative. -/
  walks : ∀ a, p.arena = some a → ∀ fuel, count ≤ fuel →
    walk (fun i => read32 a.mem (i * p.bufSize)) fuel (idxOf p.headFreeVal) = List.range (min count (2 ^ 31))

section Constructor

variable {maps : Nat → Bool → Bool} {count bufSize size : Nat} {hugepage : Bool}

/-- The constructor behind a mapping that holds all the buffers. -/
theorem bufferPool_begins (hmaps : Maps maps) (hbuf : bufSize < wordSize)
    (hsize : allocate maps (count * stride bufSize % wordSize) hugepage = some size)
    (hfits : count * stride bufSize < wordSize) :
    ∃ p, bufferPool maps count bufSize hugepage = some p ∧ Begins count bufSize p := by
  obtain ⟨hpos, hle, hlt⟩ := allocate_spec hmaps (Nat.mod_lt _ (by decide)) hsize
  rw [Nat.mod_eq_of_lt hfits] at hpos hle
  have hcount : 1 ≤ count := Nat.pos_of_mul_pos_right hpos
  obtain ⟨hroom, hline, hmult, -⟩ := stride_spec hbuf (Nat.pos_of_mul_pos_left hpos)
  have hsmall : count < wordSize := (Nat.le_mul_of_pos_right count (by omega)).trans_lt hfits
  have hlast : sub count 1 = count - 1 := sub_of_le hsmall hcount
  have hone : stride bufSize + (count - 1) * stride bufSize = count * stride bufSize := by
    rw [Nat.sub_mul, Nat.one_mul, Nat.add_sub_cancel' (Nat.le_mul_of_pos_left _ hcount)]
  have hin {j : Nat} (hj : j ≤ count - 1) : j * stride bufSize + 4 ≤ size := by
    have := Nat.mul_le_mul_right (stride bufSize) hj
    omega
  obtain ⟨mem, hlinked, hread⟩ := linkAll_spec (a := ⟨size, fun _ => 0⟩) (i := 0) (by omega : 4 ≤ stride bufSize)
    (by omega : count - 1 - 0 < count - 1 + 1) (fun j hj => hin (Nat.le_of_lt hj)) (by omega)
  have hpoke : Arena.poke ⟨size, fun _ => 0⟩ (size - 1) 0 = some ⟨size, fun _ => 0⟩ := by
    rw [Arena.poke, if_pos (by change size - 1 < size; omega), Function.update_eq_self_iff.mpr rfl]
  have hstore : Arena.store ⟨size, mem⟩ ((count - 1) * stride bufSize) listEnd
      = some ⟨size, write32 mem ((count - 1) * stride bufSize) listEnd⟩ := if_pos (hin (Nat.le_refl _))
  have hbuilt : bufferPool maps count bufSize hugepage = some
      { bufSize := stride bufSize, count := count, headFreeVal := 0, available := count
        arena := some ⟨size, write32 mem ((count - 1) * stride bufSize) listEnd⟩ } := by
    unfold bufferPool
    simp only [hsize, hlast]
    rw [warm_eq hlt (by omega) (by omega), Option.bind_some, if_pos (by omega), hpoke, Option.bind_some, hlinked,
      Option.bind_some, Nat.mod_eq_of_lt (by omega), hstore]
    rfl
  have hlinks : ∀ i < count, read32 (write32 mem ((count - 1) * stride bufSize) listEnd) (i * stride bufSize) =
      if i + 1 < count then (i + 1) % 2 ^ 32 else listEnd := by
    intro i hi
    by_cases hend : i = count - 1
    · subst hend
      rw [read32_write32 _ _ (by decide), if_neg (by omega)]
    · rw [read32_write32_of_ne _ (by omega) (Ne.symm hend), hread i, if_pos (by omega), if_pos (by omega)]
  refine ⟨_, hbuilt, ⟨(fun h => by cases h), fun _ => hcount, fun _ => ⟨hroom, hline, hmult⟩, ?_, fun _ => ⟨rfl, rfl⟩, ?_, ?_⟩⟩
  · intro a ha
    cases ha
    exact hle
  · intro a ha
    cases ha
    exact hlinks
  · intro a ha fuel hfuel
    cases ha
    exact walk_links hcount hlinks hfuel

/-- The constructor behind a mapping that does not hold all the buffers. -/
theorem bufferPool_outside (hmaps : Maps maps) (hcount : count < wordSize)
    (hbuf : bufSize < wordSize) (hsize : allocate maps (count * stride bufSize % wordSize) hugepage = some size)
    (hwraps : wordSize ≤ count * stride bufSize) : bufferPool maps count bufSize hugepage = none := by
  obtain ⟨hpos, hle, hlt⟩ := allocate_spec hmaps (Nat.mod_lt _ (by decide)) hsize
  have hword : 2 ^ 64 ≤ count * stride bufSize := hwraps
  have hstride : 0 < stride bufSize := Nat.pos_of_ne_zero fun hzero => by
    rw [hzero, Nat.mul_zero] at hword
    omega
  obtain ⟨-, hline, -, hless⟩ := stride_spec hbuf hstride
  have hcount' : 1 ≤ count := Nat.pos_of_mul_pos_right (by omega : 0 < count * stride bufSize)
  have hlast : sub count 1 = count - 1 := sub_of_le hcount hcount'
  -- the first buffer that begins behind the mapping
  obtain ⟨j, hj, hin⟩ : ∃ j, size ≤ j * stride bufSize ∧ j * stride bufSize < wordSize := by
    by_cases hlarge : 2 ^ 63 ≤ stride bufSize
    · exact ⟨1, by omega, by omega⟩
    · refine ⟨size / stride bufSize + 1, ?_, ?_⟩
      · have := Nat.div_add_mod size (stride bufSize)
        have := Nat.mod_lt size hstride
        rw [Nat.add_mul, Nat.one_mul, Nat.mul_comm]
        omega
      · have := Nat.div_mul_le_self size (stride bufSize)
        rw [Nat.add_mul, Nat.one_mul]
        unfold wordSize
        omega
  have hjcount : j < count := Nat.lt_of_mul_lt_mul_right (hin.trans_le hwraps)
  have hout : size < j * stride bufSize % wordSize + 4 := by
    rw [Nat.mod_eq_of_lt hin]
    omega
  unfold bufferPool
  simp only [hsize, hlast]
  have hpoke : Arena.poke ⟨size, fun _ => 0⟩ (size - 1) 0 = some ⟨size, fun _ => 0⟩ := by
    rw [Arena.poke, if_pos (by change size - 1 < size; omega), Function.update_eq_self_iff.mpr rfl]
  rw [warm_eq hlt (by omega) (by omega), Option.bind_some, if_pos (by omega), hpoke, Option.bind_some]
  by_cases hinner : j < count - 1
  · rw [linkAll_none (Nat.zero_le j) hinner hout]
    rfl
  · obtain rfl : j = count - 1 := by omega
    cases hlinked : linkAll (stride bufSize) (count - 1) (count - 1 + 1) 0 ⟨size, fun _ => 0⟩ with
    | none => rfl
    | some a =>
      have hsame : a.size = size := linkAll_size hlinked
      rw [Option.bind_some, Arena.store, if_neg (by rw [hsame]; omega)]
      rfl

theorem begins_of_fits (hmaps : Maps maps) (hbuf : bufSize < wordSize)
    (h : allocate maps (count * stride bufSize % wordSize) hugepage = none ∨ count * stride bufSize < wordSize) :
    ∃ p, bufferPool maps count bufSize hugepage = some p ∧ Begins count bufSize p := by
  cases hsize : allocate maps (count * stride bufSize % wordSize) hugepage with
  | some size => exact bufferPool_begins hmaps hbuf hsize (h.resolve_left fun hnone => by cases hsize.symm.trans hnone)
  | none =>
    have hbuilt : bufferPool maps count bufSize hugepage = some
        { bufSize := stride bufSize, count := count, arena := none, headFreeVal := listEnd, available := 0 } := by
      unfold bufferPool
      simp only [hsize]
    refine ⟨_, hbuilt, ⟨fun _ => ⟨(by decide : Negative (idxOf listEnd)), rfl⟩, ?_, ?_, fun a ha => ?_, ?_, fun a ha => ?_,
      fun a ha => ?_⟩⟩
    · exact fun hsome => by cases hsome
    · exact fun hsome => by cases hsome
    · cases ha
    · exact fun hsome => by cases hsome
    · cases ha
    · cases ha

/-- A constructor that returns has mapped nothing, or all the buffers. -/
theorem fits_of_bufferPool {p : BufferPool} (hmaps : Maps maps) (hcount : count < wordSize) (hbuf : bufSize < wordSize)
    (h : bufferPool maps count bufSize hugepage = some p) :
    allocate maps (count * stride bufSize % wordSize) hugepage = none ∨ count * stride bufSize < wordSize := by
  cases hsize : allocate maps (count * stride bufSize % wordSize) hugepage with
  | none => exact Or.inl rfl
  | some size =>
    refine Or.inr (Nat.lt_of_not_le fun hwraps => ?_)
    rw [bufferPool_outside hmaps hcount hbuf hsize hwraps] at h
    cases h

/-- **The constructor stays inside its arena** exactly if the kernel maps no memory, or the size of all the buffers
together does not wrap. It then leaves a pool in order: every buffer, rounded up to cache lines, has its own place in the
arena, and the free list goes through all of them, or through the first `2 ^ 31` if there are more. -/
theorem bufferPool_begins_iff (maps : Nat → Bool → Bool) (count bufSize : Nat) (hugepage : Bool) (hmaps : Maps maps)
    (hcount : count < wordSize) (hbuf : bufSize < wordSize) :
    (∃ p, bufferPool maps count bufSize hugepage = some p ∧ Begins count bufSize p) ↔
      allocate maps (count * stride bufSize % wordSize) hugepage = none ∨ count * stride bufSize < wordSize := by
  constructor
  · rintro ⟨p, hp, -⟩
    exact fits_of_bufferPool hmaps hcount hbuf hp
  · exact begins_of_fits hmaps hbuf

end Constructor

/-- A kernel without huge pages, which maps at most one page. -/
def onePage (size : Nat) (huge : Bool) : Bool := !huge && decide (0 < size ∧ size ≤ 4096)

theorem maps_onePage : Maps onePage := by
  intro size huge hsize
  obtain ⟨-, hin⟩ := Bool.and_eq_true_iff.mp hsize
  have := of_decide_eq_true hin
  omega

/-- Three buffers of a hundred bytes. -/
theorem three_begins : ∃ p, bufferPool onePage 3 100 true = some p ∧ p.bufSize = 128 ∧ Begins 3 100 p := by
  have hfits : 3 * stride 100 < wordSize := by decide
  obtain ⟨p, hp, hbegins⟩ := (bufferPool_begins_iff _ 3 100 true maps_onePage (by decide) (by decide)).mpr (Or.inr hfits)
  have hsize : (bufferPool onePage 3 100 true).map BufferPool.bufSize = some 128 := by decide
  rw [hp] at hsize
  exact ⟨p, hp, Option.some.inj hsize, hbegins⟩

/-! ### Runs over the bytes -/

/-- The pool over the bytes of its arena. The links of `control` are not read: they are in the bytes. -/
structure Bytes (T : Type) where
  control : State T
  mem : Nat → UInt8

inductive ByteEvent (T : Type) where
  | thread (t : T) (act : Act)
  /-- An owner writes a byte of a buffer it holds. -/
  | write (idx off : Nat) (byte : UInt8)

variable {T : Type}

/-- The links as they stand in the bytes. -/
def Bytes.view (count b : Nat) (x : Bytes T) : State T :=
  { x.control with nextIdx := fun i => if i < count then read32 x.mem (i * b) else listEnd }

/-- What a thread's step writes. -/
def Bytes.stored (b : Nat) (x : Bytes T) (t : T) : Act → Nat → UInt8
  | .link =>
    match x.control.pc t with
    | .linking idx old => write32 x.mem (idx * b) (if Negative (idxOf old) then listEnd else idxOf old)
    | _ => x.mem
  | _ => x.mem

/-- A step over the bytes: the program of `threadStep`, with the links read from the arena and written to it. -/
def byteStep [DecidableEq T] (count b : Nat) (x : Bytes T) : ByteEvent T → Option (Bytes T)
  | .thread t act => (threadStep count (x.view count b) t act).map fun s => ⟨s, x.stored b t act⟩
  | .write idx off byte =>
    if idx ∈ x.control.held ∧ off < b then some { x with mem := Function.update x.mem (idx * b + off) byte } else none

/-- The event of the free list's model. -/
def Bytes.event (b : Nat) (x : Bytes T) : ByteEvent T → Event T
  | .thread t act => .thread t act
  | .write idx off byte => .write idx (read32 (Function.update x.mem (idx * b + off) byte) (idx * b))

/-- The timely interleavings over the arena of a new pool. -/
inductive ByteReachable [DecidableEq T] (count : Nat) (p : BufferPool) : Bytes T → Prop where
  | init {a : Arena} (ha : p.arena = some a) : ByteReachable count p ⟨init count, a.mem⟩
  | step {x x' : Bytes T} (h : ByteReachable count p x) (e : ByteEvent T)
      (htimely : Timely (x.view count p.bufSize) (x.event p.bufSize e)) (hstep : byteStep count p.bufSize x e = some x') :
      ByteReachable count p x'

/-- A step of a thread writes no link, or that of the buffer it gives back. -/
theorem Turn.nextIdx [DecidableEq T] {count : Nat} {s s' : State T} {t : T} {act : Act} (h : Turn count s t act s') :
    (act ≠ .link ∧ s'.nextIdx = s.nextIdx) ∨ ∃ idx old, act = .link ∧ s.pc t = .linking idx old ∧
      s'.nextIdx = Function.update s.nextIdx idx (if Negative (idxOf old) then listEnd else idxOf old) := by
  cases h with
  | link hpc => exact Or.inr ⟨_, _, rfl, hpc, rfl⟩
  | begin _ | readHead _ | readNext _ _ | giveUp _ _ | pop _ | popAgain _ _ | push _ | pushAgain _ _ | handOut _
  | countIn _ | giveBack _ _ => exact Or.inl ⟨(fun hact => by cases hact), rfl⟩

variable [DecidableEq T] [Fintype T] {count : Nat} {p : BufferPool}

omit [Fintype T] in
/-- A step over the bytes is one of the free list. -/
theorem view_step {b : Nat} {x x' : Bytes T} {e : ByteEvent T} (hb : 4 ≤ b)
    (htransit : ∀ t, ∀ i ∈ (x.control.pc t).transit, i < count) (hheld : ∀ i ∈ x.control.held, i < count)
    (h : byteStep count b x e = some x') : step count (x.view count b) (x.event b e) = some (x'.view count b) := by
  cases e with
  | thread t act =>
    rw [byteStep] at h
    obtain ⟨s, hs, rfl⟩ := Option.map_eq_some_iff.mp h
    rw [Bytes.event, step, hs]
    have hlinks : s.nextIdx = fun i => if i < count then read32 (x.stored b t act) (i * b) else listEnd := by
      rcases (turn_of_threadStep hs).nextIdx with ⟨hact, hsame⟩ | ⟨idx, old, rfl, hpc, hnext⟩
      · have hstored : x.stored b t act = x.mem := by
          cases act with
          | link => exact absurd rfl hact
          | load | readNext | giveUp | swap _ | finish | release _ => rfl
        rw [hsame, hstored]
        rfl
      · have hpc' : x.control.pc t = .linking idx old := hpc
        have hidx : idx < count := htransit t idx (by rw [hpc']; exact Multiset.mem_singleton_self idx)
        have hval : (if Negative (idxOf old) then listEnd else idxOf old) < 2 ^ 32 := by
          split
          · decide
          · exact Nat.mod_lt _ (by decide)
        rw [hnext]
        funext i
        by_cases hi : i = idx
        · subst hi
          rw [Function.update_self, if_pos hidx, Bytes.stored, hpc', read32_write32 _ _ hval]
        · rw [Function.update_of_ne hi, Bytes.stored, hpc', read32_write32_of_ne _ hb (Ne.symm hi)]
          rfl
    exact congrArg some (congrArg (fun next => { s with nextIdx := next }) hlinks)
  | write idx off byte =>
    rw [byteStep] at h
    split at h <;> cases h
    next hin =>
      have hidx := hheld idx hin.1
      have hword (mem : Nat → UInt8) (pos : Nat) : read32 mem pos % 2 ^ 32 = read32 mem pos :=
        Nat.mod_eq_of_lt (leNat_lt [mem pos, mem (pos + 1), mem (pos + 2), mem (pos + 3)])
      have hlinks : Function.update (x.view count b).nextIdx idx
            (read32 (Function.update x.mem (idx * b + off) byte) (idx * b)) =
          fun i => if i < count then read32 (Function.update x.mem (idx * b + off) byte) (i * b) else listEnd := by
        funext i
        by_cases hi : i = idx
        · subst hi
          rw [Function.update_self, if_pos hidx]
        · rw [Function.update_of_ne hi]
          refine if_congr Iff.rfl (read32_congr fun k hk => ?_).symm rfl
          exact Function.update_of_ne (buffers_apart hi (by omega) hin.2) ..
      have hmem : idx ∈ (x.view count b).held := hin.1
      rw [Bytes.event, step, if_pos hmem, hword]
      exact congrArg some (congrArg (fun next => { x.control with nextIdx := next }) hlinks)

/-- An index that a thread has read is that of a buffer. -/
def ReadsBelow (count : Nat) (s : State T) : Prop :=
  ∀ t old, (s.pc t = .acquiring old ∨ ∃ next, s.pc t = .popping old next) → ¬ Negative (idxOf old) → idxOf old < count

omit [DecidableEq T] in
theorem Inv.head_lt {free : List Nat} {s : State T} (hI : Inv count free s) (hpos : ¬ Negative (idxOf s.headFreeVal)) :
    idxOf s.headFreeVal < count := by
  obtain ⟨rest, rfl, -⟩ := chain_head hI.chain hpos
  exact hI.below (Multiset.mem_add.mpr (Or.inl (Multiset.mem_add.mpr (Or.inl List.mem_cons_self))))

/-- A stale index is as good as a fresh one to read from. -/
theorem Turn.readsBelow {free : List Nat} {s s' : State T} {t : T} {act : Act} (hturn : Turn count s t act s')
    (hI : Inv count free s) (h : ReadsBelow count s) : ReadsBelow count s' := by
  intro u old hpc hpos
  by_cases hu : u = t
  · subst hu
    have hself {q : Pc} {x : State T} (hx : x.pc = Function.update s.pc u q) : x.pc u = q := by
      rw [hx, Function.update_self]
    cases hturn with
    | begin _ | popAgain _ _ =>
      rw [hself rfl] at hpc
      rcases hpc with hpc | ⟨next, hpc⟩ <;> cases hpc
      exact hI.head_lt hpos
    | readNext hpc' hpos' =>
      rw [hself rfl] at hpc
      rcases hpc with hpc | ⟨next, hpc⟩ <;> cases hpc
      exact h u _ (Or.inl hpc') hpos'
    | readHead _ | giveUp _ _ | link _ | pop _ | push _ | pushAgain _ _ | handOut _ | countIn _ | giveBack _ _ =>
      rw [hself rfl] at hpc
      rcases hpc with hpc | ⟨next, hpc⟩ <;> cases hpc
  · rw [hturn.pc_of_ne hu] at hpc
    exact h u old hpc hpos

theorem Reachable.readsBelow {s : State T} (hpos : 1 ≤ count) (hcount : count < 2 ^ 31) (h : Reachable count s) :
    ReadsBelow count s := by
  induction h with
  | init =>
    intro t old hpc
    rcases hpc with hpc | ⟨next, hpc⟩ <;> cases hpc
  | step h e htimely hstep ih =>
    obtain ⟨free, hI⟩ := inv_of_reachable hpos hcount h
    cases e with
    | thread t act => exact (turn_of_threadStep hstep).readsBelow hI ih
    | write idx val =>
      rw [Pool.step] at hstep
      split at hstep <;> cases hstep
      exact ih

/-- A constructor that returns has left the pool in order. -/
theorem begins_of_bufferPool {maps : Nat → Bool → Bool} {bufSize : Nat} {hugepage : Bool} (hmaps : Maps maps)
    (hcount : count < wordSize) (hbuf : bufSize < wordSize) (h : bufferPool maps count bufSize hugepage = some p) :
    Begins count bufSize p := by
  obtain ⟨p', hp', hbegins⟩ := begins_of_fits hmaps hbuf (fits_of_bufferPool hmaps hcount hbuf h)
  cases h.symm.trans hp'
  exact hbegins

theorem ByteReachable.reachable {bufSize : Nat} {x : Bytes T} (hp : Begins count bufSize p) (hcount : count < 2 ^ 31)
    (h : ByteReachable count p x) : p.arena.isSome ∧ Reachable count (x.view count p.bufSize) := by
  induction h with
  | @init a ha =>
    refine ⟨by rw [ha]; rfl, ?_⟩
    have hlinks : Bytes.view count p.bufSize ⟨Pool.init count, a.mem⟩ = (Pool.init count : State T) := by
      refine congrArg (fun next => { (Pool.init count : State T) with nextIdx := next }) (funext fun i => ?_)
      by_cases hi : i < count
      · rw [if_pos hi, hp.links _ ha i hi]
        refine if_congr Iff.rfl (Nat.mod_eq_of_lt (by omega)) rfl
      · rw [if_neg hi, if_neg (by omega)]
    rw [hlinks]
    exact .init
  | step h e htimely hstep ih =>
    obtain ⟨hsome, hreach⟩ := ih
    obtain ⟨free, hI⟩ := inv_of_reachable (hp.some_buffer hsome) hcount hreach
    have hline := (hp.room hsome).2.1
    refine ⟨hsome, hreach.step _ htimely (view_step (by omega) (fun t i hi => ?_) (fun i hi => ?_) hstep)⟩
    · exact hI.below (Multiset.mem_add.mpr (Or.inr (Ledger.mem_total (t := t) hi)))
    · exact hI.below (Multiset.mem_add.mpr (Or.inl (Multiset.mem_add.mpr (Or.inr hi))))

/-- **The bytes follow the free list.** In every timely interleaving over the arena of a new pool, with owners that write
what they like into their buffers, the links in the bytes are those of a run of the free list's model; and whatever has
become of the buffer since its index was read, every link that `acquire` reads and `release` writes lies inside the
arena. -/
theorem arena_refines {maps : Nat → Bool → Bool} {bufSize : Nat} {hugepage : Bool} {a : Arena} {x : Bytes T}
    (hmaps : Maps maps) (hcount : count < 2 ^ 31) (hbuf : bufSize < wordSize)
    (hp : bufferPool maps count bufSize hugepage = some p) (ha : p.arena = some a) (h : ByteReachable count p x) :
    Reachable count (x.view count p.bufSize) ∧
      (∀ t old, x.control.pc t = .acquiring old → ¬ Negative (idxOf old) → idxOf old * p.bufSize + 4 ≤ a.size) ∧
      ∀ t idx old, x.control.pc t = .linking idx old → idx * p.bufSize + 4 ≤ a.size := by
  have hbegins := begins_of_bufferPool hmaps (by unfold wordSize; omega) hbuf hp
  obtain ⟨hsome, hreach⟩ := h.reachable hbegins hcount
  have hpos := hbegins.some_buffer hsome
  have hroom := (hbegins.room hsome).2.1
  have hinside {i : Nat} (hi : i < count) : i * p.bufSize + 4 ≤ a.size := by
    have hnext := Nat.mul_le_mul_right p.bufSize (Nat.succ_le_of_lt hi)
    rw [Nat.succ_mul] at hnext
    have := hbegins.inside a ha
    omega
  obtain ⟨free, hI⟩ := inv_of_reachable hpos hcount hreach
  refine ⟨hreach, fun t old hpc hneg => ?_, fun t idx old hpc => ?_⟩
  · exact hinside (hreach.readsBelow hpos hcount t old (Or.inl hpc) hneg)
  · have hmem : idx ∈ ((x.view count p.bufSize).pc t).transit := by
      have hpc' : (x.view count p.bufSize).pc t = .linking idx old := hpc
      rw [hpc']
      exact Multiset.mem_singleton_self idx
    exact hinside (hI.below (Multiset.mem_add.mpr (Or.inr (Ledger.mem_total hmem))))

/-- A pool of two buffers. -/
theorem two_buffers : ∃ p a, bufferPool onePage 2 64 false = some p ∧ p.arena = some a ∧ 0 < p.bufSize := by
  have hfits : 2 * stride 64 < wordSize := by decide
  obtain ⟨p, hp, hbegins⟩ : ∃ p, bufferPool onePage 2 64 false = some p ∧ Begins 2 64 p :=
    begins_of_fits maps_onePage (by decide) (Or.inr hfits)
  have hsome : ((bufferPool onePage 2 64 false).bind BufferPool.arena).isSome = true := by decide
  rw [hp, Option.bind_some] at hsome
  obtain ⟨a, ha⟩ := Option.isSome_iff_exists.mp hsome
  have hroom := (hbegins.room hsome).2.1
  exact ⟨p, a, hp, ha, by omega⟩

/-- One thread has taken the first of the two. -/
theorem one_taken : ∃ p a, ∃ x : Bytes (Fin 2), bufferPool onePage 2 64 false = some p ∧ p.arena = some a ∧
    ByteReachable 2 p x ∧ x.control.pc 1 = .idle ∧ x.control.held = [0] := by
  obtain ⟨p, a, hp, ha, -⟩ := two_buffers
  have h0 : ByteReachable 2 p (⟨init 2, a.mem⟩ : Bytes (Fin 2)) := .init ha
  have h1 := h0.step (.thread 0 .load) trivial rfl
  have h2 := h1.step (.thread 0 .readNext) trivial rfl
  have h3 := h2.step (.thread 0 (.swap false)) (by decide : 0 < 2 ^ 32) rfl
  have h4 := h3.step (.thread 0 .finish) trivial rfl
  exact ⟨p, a, _, hp, ha, h4, rfl, rfl⟩

/-- The owner has written over the link of the buffer that the other thread, which has read the head before, is about to
follow. -/
theorem one_overwritten_refines : ∃ p a, ∃ x : Bytes (Fin 2), bufferPool onePage 2 64 false = some p ∧
    p.arena = some a ∧ ByteReachable 2 p x ∧ x.control.held = [0] ∧ x.mem (0 * p.bufSize) = 0xff ∧
    x.control.pc 1 = .acquiring 0 ∧ Reachable 2 (x.view 2 p.bufSize) ∧ idxOf 0 * p.bufSize + 4 ≤ a.size := by
  obtain ⟨p, a, hp, ha, hroom⟩ := two_buffers
  have h0 : ByteReachable 2 p (⟨init 2, a.mem⟩ : Bytes (Fin 2)) := .init ha
  have h1 := (h0.step (.thread 1 .load) trivial rfl).step (.thread 0 .load) trivial rfl
  have h2 := h1.step (.thread 0 .readNext) trivial rfl
  have h3 := (h2.step (.thread 0 (.swap false)) (by decide : 0 < 2 ^ 32) rfl).step (.thread 0 .finish) trivial rfl
  have h4 := h3.step (.write 0 0 0xff) trivial (if_pos ⟨List.mem_cons_self, hroom⟩)
  obtain ⟨hreachable, hreads, -⟩ := arena_refines maps_onePage (by decide) (by decide) hp ha h4
  exact ⟨p, a, _, hp, ha, h4, rfl, Function.update_self _ _ _, rfl, hreachable, hreads 1 0 rfl (by decide)⟩

/-! ### The bytes of a buffer that is out -/

/-- A run of timely steps over the bytes. -/
inductive ByteRuns (count b : Nat) : Bytes T → List (ByteEvent T) → Bytes T → Prop where
  | stop (x : Bytes T) : ByteRuns count b x [] x
  | step {x x' x'' : Bytes T} {es : List (ByteEvent T)} (e : ByteEvent T) (htimely : Timely (x.view count b) (x.event b e))
      (hstep : byteStep count b x e = some x') (h : ByteRuns count b x' es x'') : ByteRuns count b x (e :: es) x''

/-- What a byte of a buffer is after the writes of its owner. -/
def written (idx off : Nat) : List (ByteEvent T) → UInt8 → UInt8
  | [], v => v
  | .write i o byte :: es, v => written idx off es (if i = idx ∧ o = off then byte else v)
  | .thread _ _ :: es, v => written idx off es v

omit [Fintype T] in
/-- A buffer is out until it is released. -/
theorem Turn.mem_held {s s' : State T} {t : T} {act : Act} {idx : Nat} (h : Turn count s t act s') (hidx : idx ∈ s.held)
    (hact : act ≠ .release idx) : idx ∈ s'.held := by
  cases h with
  | handOut _ => exact List.mem_cons_of_mem _ hidx
  | giveBack _ _ => exact (List.mem_erase_of_ne fun heq => hact (by rw [heq])).mpr hidx
  | begin _ | readHead _ | readNext _ _ | giveUp _ _ | link _ | pop _ | popAgain _ _ | push _ | pushAgain _ _
  | countIn _ => exact hidx

/-- No step of a thread touches a buffer that is out. -/
theorem stored_of_held {free : List Nat} {b : Nat} {x : Bytes T} (hb : 4 ≤ b) (hI : Inv count free (x.view count b))
    {idx off : Nat} (hidx : idx ∈ x.control.held) (hoff : off < b) (t : T) (act : Act) :
    x.stored b t act (idx * b + off) = x.mem (idx * b + off) := by
  cases act with
  | link =>
    cases hpc : x.control.pc t with
    | linking j old =>
      have hmem : j ∈ ((x.view count b).pc t).transit := by
        have hpc' : (x.view count b).pc t = .linking j old := hpc
        rw [hpc']
        exact Multiset.mem_singleton_self j
      have hne : idx ≠ j := by
        rintro rfl
        exact (hI.transit_apart hmem).2.1 hidx
      rw [Bytes.stored, hpc]
      refine write32_of_apart ?_
      by_contra hin
      exact buffers_apart hne hoff (by omega : idx * b + off - j * b < b) (by omega)
    | idle | acquiring _ | popping _ _ | popped _ | releasing _ | pushing _ _ | pushed _ => rw [Bytes.stored, hpc]
  | load | readNext | giveUp | swap _ | finish | release _ => rfl

theorem byteStep_held {free : List Nat} {b : Nat} {x x' : Bytes T} {e : ByteEvent T} (hb : 4 ≤ b)
    (hI : Inv count free (x.view count b)) (h : byteStep count b x e = some x') {idx : Nat}
    (hidx : idx ∈ x.control.held) (hkept : ∀ t, e ≠ .thread t (.release idx)) :
    idx ∈ x'.control.held ∧
      ∀ off < b, x'.mem (idx * b + off) = written idx off [e] (x.mem (idx * b + off)) := by
  cases e with
  | thread t act =>
    rw [byteStep] at h
    obtain ⟨s, hs, rfl⟩ := Option.map_eq_some_iff.mp h
    refine ⟨(turn_of_threadStep hs).mem_held hidx ?_, fun off hoff => stored_of_held hb hI hidx hoff t act⟩
    rintro rfl
    exact hkept t rfl
  | write i o byte =>
    rw [byteStep] at h
    split at h <;> cases h
    next hin =>
      refine ⟨hidx, fun off hoff => ?_⟩
      change Function.update x.mem (i * b + o) byte (idx * b + off) = if i = idx ∧ o = off then byte else _
      by_cases hi : i = idx
      · subst hi
        by_cases ho : o = off
        · rw [ho, Function.update_self, if_pos ⟨rfl, rfl⟩]
        · rw [Function.update_of_ne (by omega), if_neg fun h => ho h.2]
      · rw [Function.update_of_ne (buffers_apart (Ne.symm hi) hoff hin.2), if_neg fun h => hi h.1]

/-- **A buffer that is out belongs to its owner.** Whatever the other owners write and whichever operations are under
way, from any point of an interleaving over the arena of a new pool until the buffer is released, its bytes are what its
owner has written. -/
theorem held_bytes_written {maps : Nat → Bool → Bool} {bufSize : Nat} {hugepage : Bool} {x x' : Bytes T}
    {es : List (ByteEvent T)} {idx : Nat} (hmaps : Maps maps) (hcount : count < 2 ^ 31) (hbuf : bufSize < wordSize)
    (hp : bufferPool maps count bufSize hugepage = some p) (hx : ByteReachable count p x)
    (hrun : ByteRuns count p.bufSize x es x') (hidx : idx ∈ x.control.held)
    (hkept : ∀ t, ByteEvent.thread t (.release idx) ∉ es) :
    idx ∈ x'.control.held ∧
      ∀ off < p.bufSize, x'.mem (idx * p.bufSize + off) = written idx off es (x.mem (idx * p.bufSize + off)) := by
  have hbegins := begins_of_bufferPool hmaps (by unfold wordSize; omega) hbuf hp
  induction hrun with
  | stop x => exact ⟨hidx, fun off _ => rfl⟩
  | step e htimely hstep h ih =>
    obtain ⟨hsome, hreach⟩ := hx.reachable hbegins hcount
    obtain ⟨free, hI⟩ := inv_of_reachable (hbegins.some_buffer hsome) hcount hreach
    have hline := (hbegins.room hsome).2.1
    obtain ⟨hidx', hmem⟩ := byteStep_held (by omega) hI hstep hidx fun t heq => hkept t (heq ▸ List.mem_cons_self)
    obtain ⟨hheld, hbytes⟩ := ih (hx.step e htimely hstep) hidx' fun t hin => hkept t (List.mem_cons_of_mem _ hin)
    refine ⟨hheld, fun off hoff => ?_⟩
    rw [hbytes off hoff, hmem off hoff]
    cases e with
    | thread t act => rfl
    | write i o byte => rfl

/-- The owner of the first buffer writes a byte of it, and another thread reads the head. -/
theorem one_taken_written : ∃ p, ∃ x x' : Bytes (Fin 2), bufferPool onePage 2 64 false = some p ∧ ByteReachable 2 p x ∧
    ByteRuns 2 p.bufSize x [.write 0 5 7, .thread 1 .load] x' ∧ x'.mem (0 * p.bufSize + 5) = 7 := by
  obtain ⟨p, a, x, hp, ha, hx, hpc, hheld⟩ := one_taken
  have hsize : (bufferPool onePage 2 64 false).map BufferPool.bufSize = some 64 := by decide
  rw [hp] at hsize
  have hroom : 5 < p.bufSize := by
    rw [show p.bufSize = 64 from Option.some.inj hsize]
    decide
  have hidx : 0 ∈ x.control.held := by
    rw [hheld]
    exact List.mem_singleton_self 0
  have hwrite : byteStep 2 p.bufSize x (.write 0 5 7) = some { x with mem := Function.update x.mem (0 * p.bufSize + 5) 7 } :=
    if_pos ⟨hidx, hroom⟩
  have hload : ∃ x', byteStep 2 p.bufSize { x with mem := Function.update x.mem (0 * p.bufSize + 5) 7 } (.thread 1 .load)
      = some x' := by
    have hpc' : (Bytes.view 2 p.bufSize { x with mem := Function.update x.mem (0 * p.bufSize + 5) 7 }).pc 1 = .idle := hpc
    rw [byteStep, threadStep, hpc']
    exact ⟨_, rfl⟩
  obtain ⟨x', hload⟩ := hload
  have hrun : ByteRuns 2 p.bufSize x [.write 0 5 7, .thread 1 .load] x' :=
    .step _ trivial hwrite (.step _ trivial hload (.stop _))
  have hkept (t : Fin 2) : ByteEvent.thread t (.release 0) ∉ [ByteEvent.write 0 5 7, .thread (1 : Fin 2) .load] := by
    simp
  exact ⟨p, x, x', hp, hx, hrun,
    (held_bytes_written maps_onePage (by decide) (by decide) hp hx hrun hidx hkept).2 5 hroom⟩

end Lepton.Pool
