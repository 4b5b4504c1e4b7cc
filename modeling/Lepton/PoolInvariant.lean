import Mathlib.Algebra.BigOperators.Fin
import Mathlib.Tactic.Abel
import Lepton.PoolModel

/-! Every buffer of the pool has exactly one place: the free list, the hands of an owner, or an
operation in progress. A thread that read the head before the last exchange holds a stale version,
and the version tag makes its own exchange fail; a thread that read it after the last exchange holds
the head itself. So a successful exchange always acts on the true top of the list. -/

namespace Lepton.Pool

open Lepton.Ledger

/-- `list` is the chain of links from `i` to the end of the list. -/
def Chain (next : Nat → Nat) : Nat → List Nat → Prop
  | i, [] => Negative i
  | i, x :: rest => i = x ∧ ¬ Negative i ∧ Chain next (next i) rest

theorem walk_of_chain {next : Nat → Nat} {list : List Nat} {i fuel : Nat} (h : Chain next i list)
    (hfuel : list.length ≤ fuel) : walk next fuel i = list := by
  induction list generalizing i fuel with
  | nil =>
    cases fuel with
    | zero => rfl
    | succ fuel => exact if_pos h
  | cons x rest ih =>
    obtain ⟨rfl, hpos, hrest⟩ := h
    cases fuel with
    | zero => exact absurd hfuel (by simp)
    | succ fuel =>
      rw [walk, if_neg hpos, ih hrest (by simpa using hfuel)]

/-- A write outside the chain leaves the chain. -/
theorem chain_update {next : Nat → Nat} {list : List Nat} {i j : Nat} (v : Nat) (h : Chain next i list)
    (hj : j ∉ list) : Chain (Function.update next j v) i list := by
  induction list generalizing i with
  | nil => exact h
  | cons x rest ih =>
    obtain ⟨rfl, hpos, hrest⟩ := h
    have hne : i ≠ j := fun he => hj (he ▸ List.mem_cons_self)
    refine ⟨rfl, hpos, ?_⟩
    rw [Function.update_of_ne hne]
    exact ih hrest (fun hmem => hj (List.mem_cons_of_mem _ hmem))

theorem chain_head {next : Nat → Nat} {list : List Nat} {i : Nat} (h : Chain next i list)
    (hpos : ¬ Negative i) : ∃ rest, list = i :: rest ∧ Chain next (next i) rest := by
  cases list with
  | nil => exact absurd h hpos
  | cons x rest => exact ⟨rest, by rw [h.1], h.2.2⟩

theorem chain_negative {next : Nat → Nat} {list : List Nat} {i : Nat} (h : Chain next i list)
    (hneg : Negative i) : list = [] := by
  cases list with
  | nil => rfl
  | cons x rest => exact absurd hneg h.2.1

theorem update_lt {next : Nat → Nat} {j v bound : Nat} (h : ∀ i, next i < bound) (hv : v < bound) (i : Nat) :
    Function.update next j v i < bound := by
  by_cases hi : i = j
  · rw [hi, Function.update_self]
    exact hv
  · rw [Function.update_of_ne hi]
    exact h i

theorem idxOf_bump {old idx : Nat} (h : idx < 2 ^ 32) : idxOf (bump old idx) = idx := by
  unfold idxOf bump
  omega

theorem verOf_bump {old idx : Nat} (h : idx < 2 ^ 32) : verOf (bump old idx) = (verOf old + 1) % 2 ^ 32 := by
  unfold bump
  generalize verOf old = v
  unfold verOf
  omega

/-- The buffer a thread has in transit. -/
def Pc.transit : Pc → Multiset Nat
  | .popped idx => {idx}
  | .releasing idx => {idx}
  | .linking idx _ => {idx}
  | .pushing idx _ => {idx}
  | _ => 0

/-- A popped buffer that is not yet counted out. -/
def Pc.owes : Pc → Nat
  | .popped _ => 1
  | _ => 0

/-- A pushed buffer that is not yet counted in. -/
def Pc.lends : Pc → Nat
  | .pushed _ => 1
  | _ => 0

variable {T : Type}

/-- `old` is the head as of the thread's last reading of it. -/
structure ReadsHead (s : State T) (t : T) (old : Nat) : Prop where
  loaded : s.loadedAt t ≤ s.swaps
  version : verOf old = s.loadedAt t % 2 ^ 32
  fresh : s.loadedAt t = s.swaps → old = s.headFreeVal

/-- What a thread knows at each point of its program. -/
def Knows (s : State T) (t : T) : Pc → Prop
  | .acquiring old => ReadsHead s t old ∧ (Negative (idxOf old) → s.seen t = [])
  | .popping old next =>
    ReadsHead s t old ∧ ¬ Negative (idxOf old) ∧ (s.loadedAt t = s.swaps → next = s.nextIdx (idxOf old))
  | .linking _ old => ReadsHead s t old
  | .pushing idx old =>
    ReadsHead s t old ∧ s.nextIdx idx = if Negative (idxOf old) then listEnd else idxOf old
  | _ => True

/-- What a thread knows survives the steps of the others: an exchange makes it stale, and no write
touches the links it relies on. -/
theorem Knows.frame {s s' : State T} {t : T} {p : Pc} (h : Knows s t p)
    (hload : s'.loadedAt t = s.loadedAt t) (hseen : s'.seen t = s.seen t)
    (hhead : s'.swaps = s.swaps ∧ s'.headFreeVal = s.headFreeVal ∨ s'.swaps = s.swaps + 1)
    (htop : ∀ old next, p = .popping old next → s.loadedAt t = s.swaps →
      s'.nextIdx (idxOf old) = s.nextIdx (idxOf old))
    (hown : ∀ i ∈ p.transit, s'.nextIdx i = s.nextIdx i) : Knows s' t p := by
  have hreads : ∀ old, ReadsHead s t old → ReadsHead s' t old := by
    intro old hr
    refine ⟨by rw [hload]; have := hr.loaded; omega, by rw [hload]; exact hr.version, fun hfresh => ?_⟩
    rcases hhead with ⟨hsw, hhd⟩ | hsw
    · rw [hhd]
      exact hr.fresh (by rw [← hload, hfresh, hsw])
    · have := hr.loaded
      omega
  cases p with
  | acquiring old => exact ⟨hreads old h.1, fun hneg => by rw [hseen]; exact h.2 hneg⟩
  | popping old next =>
    refine ⟨hreads old h.1, h.2.1, fun hfresh => ?_⟩
    have hsame : s.loadedAt t = s.swaps := by
      have := h.1.loaded
      omega
    rw [htop old next rfl hsame]
    exact h.2.2 hsame
  | linking idx old => exact hreads old h
  | pushing idx old =>
    refine ⟨hreads old h.1, ?_⟩
    rw [hown idx (Multiset.mem_singleton_self idx)]
    exact h.2
  | idle => trivial
  | popped idx => trivial
  | releasing idx => trivial
  | pushed idx => trivial

variable [Fintype T]

/-- What the pool's own memory says, with `free` the free list: every buffer has one place, and the
counter lags behind the list by the operations that have not counted yet. -/
structure Books (count : Nat) (free : List Nat) (s : State T) : Prop where
  chain : Chain s.nextIdx (idxOf s.headFreeVal) free
  places : (free : Multiset Nat) + (s.held : Multiset Nat) + total Pc.transit s.pc = Multiset.range count
  links : ∀ i, s.nextIdx i < 2 ^ 32
  version : verOf s.headFreeVal = s.swaps % 2 ^ 32
  available : s.available < 2 ^ 64
  counted : (s.available + total Pc.lends s.pc) % 2 ^ 64 = (free.length + total Pc.owes s.pc) % 2 ^ 64

/-- The invariant of the pool. -/
structure Inv (count : Nat) (free : List Nat) (s : State T) : Prop extends Books count free s where
  knows : ∀ t, Knows s t (s.pc t)

variable {count : Nat} {free : List Nat} {s : State T}

theorem Books.length_le (hB : Books count free s) :
    free.length ≤ count := by
  have hcard := congrArg Multiset.card hB.places
  simp only [Multiset.card_add, Multiset.coe_card, Multiset.card_range] at hcard
  omega

theorem Books.freeList (hB : Books count free s) :
    s.freeList count = free :=
  walk_of_chain hB.chain hB.length_le

theorem Inv.nodup (hI : Inv count free s) :
    ((free : Multiset Nat) + (s.held : Multiset Nat) + total Pc.transit s.pc).Nodup := by
  rw [hI.places]
  exact Multiset.nodup_range count

theorem Inv.below (hI : Inv count free s) {i : Nat}
    (hi : i ∈ (free : Multiset Nat) + (s.held : Multiset Nat) + total Pc.transit s.pc) : i < count := by
  rw [hI.places] at hi
  exact Multiset.mem_range.mp hi

variable [DecidableEq T]

theorem Inv.held_apart (hI : Inv count free s) {i : Nat}
    (hi : i ∈ s.held) : i ∉ free ∧ ∀ t, i ∉ (s.pc t).transit := by
  have hnodup := hI.nodup
  rw [Multiset.nodup_add, Multiset.nodup_add] at hnodup
  obtain ⟨⟨-, -, hfree⟩, -, htransit⟩ := hnodup
  refine ⟨fun hmem => Multiset.disjoint_left.mp hfree hmem hi, fun t hmem => ?_⟩
  exact Multiset.disjoint_left.mp htransit (Multiset.mem_add.mpr (Or.inr hi)) (mem_total hmem)

/-- A buffer in transit is neither free nor held, and no other thread has it. -/
theorem Inv.transit_apart (hI : Inv count free s) {i : Nat}
    {t : T} (hi : i ∈ (s.pc t).transit) :
    i ∉ free ∧ i ∉ s.held ∧ ∀ u, u ≠ t → i ∉ (s.pc u).transit := by
  have hnodup := hI.nodup
  rw [Multiset.nodup_add] at hnodup
  obtain ⟨-, htotal, hrest⟩ := hnodup
  have hout := fun hmem => Multiset.disjoint_left.mp hrest hmem (mem_total hi)
  refine ⟨fun hmem => hout (Multiset.mem_add.mpr (Or.inl hmem)),
    fun hmem => hout (Multiset.mem_add.mpr (Or.inr hmem)), fun u hne hmem => ?_⟩
  exact Multiset.disjoint_left.mp (total_disjoint htotal hne) hmem hi

omit [Fintype T] in
theorem knows_update {pc : T → Pc} {s' : State T} {t : T} {p : Pc} (hknows : Knows s' t p)
    (hothers : ∀ u, u ≠ t → Knows s' u (pc u)) (u : T) : Knows s' u (Function.update pc t p u) := by
  by_cases hu : u = t
  · subst hu
    rw [Function.update_self]
    exact hknows
  · rw [Function.update_of_ne hu]
    exact hothers u hu

omit [DecidableEq T] in
theorem Inv.knows_same {s' : State T} (hI : Inv count free s)
    (hload : s'.loadedAt = s.loadedAt) (hseen : s'.seen = s.seen) (hsw : s'.swaps = s.swaps)
    (hhd : s'.headFreeVal = s.headFreeVal) (hnext : s'.nextIdx = s.nextIdx) (u : T) : Knows s' u (s.pc u) :=
  (hI.knows u).frame (by rw [hload]) (by rw [hseen]) (Or.inl ⟨hsw, hhd⟩) (fun _ _ _ _ => by rw [hnext])
    fun _ _ => by rw [hnext]

omit [DecidableEq T] in
/-- A write outside the free list and outside a thread's own buffer leaves what it knows. -/
theorem Inv.knows_write {s' : State T} (hI : Inv count free s) {u : T}
    {j v : Nat} (hfree : j ∉ free) (hown : j ∉ (s.pc u).transit) (hload : s'.loadedAt = s.loadedAt)
    (hseen : s'.seen = s.seen) (hsw : s'.swaps = s.swaps) (hhd : s'.headFreeVal = s.headFreeVal)
    (hnext : s'.nextIdx = Function.update s.nextIdx j v) : Knows s' u (s.pc u) := by
  apply (hI.knows u).frame (by rw [hload]) (by rw [hseen]) (Or.inl ⟨hsw, hhd⟩)
  · intro old next hpc hfresh
    have hk := hI.knows u
    rw [hpc] at hk
    obtain ⟨rest, hlist, -⟩ := chain_head hI.chain (by rw [← hk.1.fresh hfresh]; exact hk.2.1)
    have hne : idxOf old ≠ j := by
      rw [hk.1.fresh hfresh]
      intro he
      exact hfree (by rw [hlist, he]; exact List.mem_cons_self)
    rw [hnext, Function.update_of_ne hne]
  · intro i hi
    have hne : i ≠ j := fun he => hown (he ▸ hi)
    rw [hnext, Function.update_of_ne hne]

/-- One thread moves: the buffers and counts it gives up must be those it takes on. -/
theorem Books.move {count : Nat} {free free' : List Nat} {s s' : State T} {t : T} {p : Pc}
    (hB : Books count free s) (hpc : s'.pc = Function.update s.pc t p)
    (hchain : Chain s'.nextIdx (idxOf s'.headFreeVal) free') (hlinks : ∀ i, s'.nextIdx i < 2 ^ 32)
    (hversion : verOf s'.headFreeVal = s'.swaps % 2 ^ 32) (havailable : s'.available < 2 ^ 64)
    (hplaces : (free' : Multiset Nat) + (s'.held : Multiset Nat) + p.transit
      = (free : Multiset Nat) + (s.held : Multiset Nat) + (s.pc t).transit)
    (hcounted : (s'.available + p.lends + free.length + (s.pc t).owes) % 2 ^ 64
      = (s.available + (s.pc t).lends + free'.length + p.owes) % 2 ^ 64) : Books count free' s' where
  chain := hchain
  places := by
    rw [hpc, total_update, ← add_assoc, hplaces, add_assoc, ← total_split]
    exact hB.places
  links := hlinks
  version := hversion
  available := havailable
  counted := by
    have hbefore := hB.counted
    rw [total_split Pc.lends _ t, total_split Pc.owes _ t] at hbefore
    rw [hpc, total_update, total_update]
    omega

/-- A change of program point that moves no buffer and no count. -/
structure Pc.SamePlace (p q : Pc) : Prop where
  transit : p.transit = q.transit
  owes : p.owes = q.owes
  lends : p.lends = q.lends

theorem Books.setPc (hB : Books count free s) {t : T} {p : Pc}
    (hplace : p.SamePlace (s.pc t)) : Books count free (s.setPc t p) := by
  refine hB.move rfl hB.chain hB.links hB.version hB.available ?_ ?_
  · rw [hplace.transit]
    rfl
  · rw [hplace.lends, hplace.owes]
    rfl

theorem Inv.setPc (hI : Inv count free s) {t : T} {p : Pc}
    (hplace : p.SamePlace (s.pc t)) (hknows : Knows s t p) : Inv count free (s.setPc t p) where
  toBooks := hI.toBooks.setPc hplace
  knows := knows_update (hknows.frame rfl rfl (Or.inl ⟨rfl, rfl⟩) (fun _ _ _ _ => rfl) fun _ _ => rfl)
    fun u _ => by apply hI.knows_same <;> rfl

/-- A thread that reads the head holds the head. -/
theorem Inv.read (hI : Inv count free s) {t : T} {p : Pc}
    (hplace : p.SamePlace (s.pc t)) (hknows : Knows (s.read count t p) t p) :
    Inv count free (s.read count t p) where
  toBooks := { hI.toBooks.setPc hplace with }
  knows := by
    apply knows_update hknows
    intro u hu
    have hload : (s.read count t p).loadedAt u = s.loadedAt u := Function.update_of_ne hu ..
    have hseen : (s.read count t p).seen u = s.seen u := Function.update_of_ne hu ..
    exact (hI.knows u).frame hload hseen (Or.inl ⟨rfl, rfl⟩) (fun _ _ _ _ => rfl) fun _ _ => rfl

theorem Inv.readsHead (hI : Inv count free s) (t : T) (p : Pc) :
    ReadsHead (s.read count t p) t s.headFreeVal := by
  have hload : (s.read count t p).loadedAt t = s.swaps := Function.update_self ..
  refine ⟨le_of_eq hload, ?_, fun _ => rfl⟩
  rw [hload]
  exact hI.version

omit [DecidableEq T] in
/-- Two threads' versions agree only if no exchange lies between their readings. -/
theorem Inv.fresh (hI : Inv count free s) {t : T}
    (hreads : ReadsHead s t s.headFreeVal) (htimely : s.swaps - s.loadedAt t < 2 ^ 32) :
    s.loadedAt t = s.swaps := by
  have hmod : s.loadedAt t % 2 ^ 32 = s.swaps % 2 ^ 32 := hreads.version.symm.trans hI.version
  have := hreads.loaded
  omega

/-- What an exchange leaves the other threads with. -/
theorem Inv.knows_exchange (hI : Inv count free s) (t : T)
    (val : Nat) (p : Pc) (u : T) : Knows (s.exchange t val p) u (s.pc u) :=
  (hI.knows u).frame rfl rfl (Or.inr rfl) (fun _ _ _ _ => rfl) fun _ _ => rfl

/-- A timely exchange of `acquire` pops the top of the list. -/
theorem Inv.pop (hI : Inv count free s) {t : T} {next : Nat}
    (hpc : s.pc t = .popping s.headFreeVal next) (htimely : s.swaps - s.loadedAt t < 2 ^ 32) :
    ∃ rest, free = idxOf s.headFreeVal :: rest ∧
      Inv count rest (s.exchange t (bump s.headFreeVal next) (.popped (idxOf s.headFreeVal))) := by
  have hk := hI.knows t
  rw [hpc] at hk
  have hnext := hk.2.2 (hI.fresh hk.1 htimely)
  have hlt : next < 2 ^ 32 := hnext ▸ hI.links _
  obtain ⟨rest, hfree, hchain⟩ := chain_head hI.chain hk.2.1
  subst hfree
  refine ⟨rest, rfl, hI.toBooks.move rfl ?_ hI.links ?_ hI.available ?_ ?_,
    knows_update trivial fun u _ => hI.knows_exchange ..⟩
  · change Chain s.nextIdx (idxOf (bump s.headFreeVal next)) rest
    rw [idxOf_bump hlt, hnext]
    exact hchain
  · change verOf (bump s.headFreeVal next) = (s.swaps + 1) % 2 ^ 32
    rw [verOf_bump hlt, hI.version, Nat.mod_add_mod]
  · rw [hpc, ← Multiset.cons_coe, ← Multiset.singleton_add]
    simp only [Pc.transit, State.exchange, State.setPc]
    abel
  · rw [hpc]
    simp only [Pc.lends, Pc.owes, List.length_cons, State.exchange, State.setPc]
    omega

/-- The link of a pushed buffer is the old top of the list. -/
theorem chain_push {next : Nat → Nat} {list : List Nat} {i j : Nat} (h : Chain next j list)
    (hi : ¬ Negative i) (hlink : next i = if Negative j then listEnd else j) : Chain next i (i :: list) := by
  refine ⟨rfl, hi, ?_⟩
  rw [hlink]
  split
  · next hneg =>
    rw [chain_negative h hneg]
    exact (by decide : Negative listEnd)
  · exact h

/-- An exchange of `release` pushes its buffer. -/
theorem Inv.push (hI : Inv count free s)
    (hcount : count < 2 ^ 31) {t : T} {idx : Nat} (hpc : s.pc t = .pushing idx s.headFreeVal) :
    Inv count (idx :: free) (s.exchange t (bump s.headFreeVal idx) (.pushed idx)) := by
  have hk := hI.knows t
  rw [hpc] at hk
  have hbelow : idx < count := by
    apply hI.below
    refine Multiset.mem_add.mpr (Or.inr (mem_total (t := t) ?_))
    rw [hpc]
    exact Multiset.mem_singleton_self idx
  have hlt : idx < 2 ^ 32 := by omega
  have hpos : ¬ Negative idx := by
    unfold Negative
    omega
  refine ⟨hI.toBooks.move rfl ?_ hI.links ?_ hI.available ?_ ?_,
    knows_update trivial fun u _ => hI.knows_exchange ..⟩
  · change Chain s.nextIdx (idxOf (bump s.headFreeVal idx)) (idx :: free)
    rw [idxOf_bump hlt]
    exact chain_push hI.chain hpos hk.2
  · change verOf (bump s.headFreeVal idx) = (s.swaps + 1) % 2 ^ 32
    rw [verOf_bump hlt, hI.version, Nat.mod_add_mod]
  · rw [hpc, ← Multiset.cons_coe, ← Multiset.singleton_add]
    simp only [Pc.transit, State.exchange, State.setPc]
    abel
  · rw [hpc]
    simp only [Pc.lends, Pc.owes, List.length_cons, State.exchange, State.setPc]
    omega

/-- `release` links its own buffer, which no other thread looks at. -/
theorem Inv.link (hI : Inv count free s) {t : T}
    {idx old : Nat} (hpc : s.pc t = .linking idx old) :
    Inv count free
      { s.setPc t (.pushing idx old) with
        nextIdx := Function.update s.nextIdx idx (if Negative (idxOf old) then listEnd else idxOf old) } := by
  have hk := hI.knows t
  have hmem : idx ∈ (s.pc t).transit := by
    rw [hpc]
    exact Multiset.mem_singleton_self idx
  rw [hpc] at hk
  obtain ⟨hfree, -, hothers⟩ := hI.transit_apart hmem
  have hlink : (if Negative (idxOf old) then listEnd else idxOf old) < 2 ^ 32 := by
    have : idxOf old < 2 ^ 32 := Nat.mod_lt _ (by decide)
    unfold listEnd
    split <;> omega
  refine ⟨hI.toBooks.move rfl (chain_update _ hI.chain hfree) ?_ hI.version hI.available ?_ ?_, ?_⟩
  · exact update_lt hI.links hlink
  · rw [hpc]
    rfl
  · rw [hpc]
    rfl
  · apply knows_update
    · exact ⟨⟨hk.loaded, hk.version, hk.fresh⟩, Function.update_self ..⟩
    · intro u hu
      exact hI.knows_write hfree (hothers u hu) rfl rfl rfl rfl rfl

/-- An owner writes over the link of a buffer it holds. -/
theorem Inv.write (hI : Inv count free s) {idx : Nat}
    (hidx : idx ∈ s.held) (val : Nat) :
    Inv count free { s with nextIdx := Function.update s.nextIdx idx (val % 2 ^ 32) } := by
  obtain ⟨hfree, hown⟩ := hI.held_apart hidx
  refine ⟨⟨chain_update _ hI.chain hfree, hI.places, ?_, hI.version, hI.available, hI.counted⟩, ?_⟩
  · exact update_lt hI.links (Nat.mod_lt _ (by decide))
  · exact fun u => hI.knows_write hfree (hown u) rfl rfl rfl rfl rfl

/-- `acquire` counts its buffer out and hands it to the owner. -/
theorem Inv.handOut (hI : Inv count free s) {t : T} {idx : Nat}
    (hpc : s.pc t = .popped idx) :
    Inv count free { s.setPc t .idle with
                     available := (s.available + (2 ^ 64 - 1)) % 2 ^ 64, held := idx :: s.held } := by
  refine ⟨hI.toBooks.move rfl hI.chain hI.links hI.version (Nat.mod_lt _ (by decide)) ?_ ?_,
    knows_update trivial fun u _ => ?_⟩
  · rw [hpc, ← Multiset.cons_coe, ← Multiset.singleton_add]
    simp only [Pc.transit]
    abel
  · rw [hpc]
    simp only [Pc.lends, Pc.owes]
    omega
  · apply hI.knows_same <;> rfl

/-- `release` counts its buffer in. -/
theorem Inv.countIn (hI : Inv count free s) {t : T} {idx : Nat}
    (hpc : s.pc t = .pushed idx) :
    Inv count free { s.setPc t .idle with available := (s.available + 1) % 2 ^ 64 } := by
  refine ⟨hI.toBooks.move rfl hI.chain hI.links hI.version (Nat.mod_lt _ (by decide)) ?_ ?_,
    knows_update trivial fun u _ => ?_⟩
  · rw [hpc]
    rfl
  · rw [hpc]
    simp only [Pc.lends, Pc.owes]
    omega
  · apply hI.knows_same <;> rfl

/-- An owner gives its buffer back. -/
theorem Inv.giveBack (hI : Inv count free s) {t : T} {idx : Nat}
    (hpc : s.pc t = .idle) (hidx : idx ∈ s.held) :
    Inv count free { s.setPc t (.releasing idx) with held := s.held.erase idx } := by
  refine ⟨hI.toBooks.move rfl hI.chain hI.links hI.version hI.available ?_ ?_,
    knows_update trivial fun u _ => ?_⟩
  · rw [hpc]
    have hsplit : (s.held : Multiset Nat) = {idx} + (s.held.erase idx : Multiset Nat) := by
      rw [Multiset.singleton_add, Multiset.cons_coe]
      exact Multiset.coe_eq_coe.mpr (List.perm_cons_erase hidx)
    rw [hsplit]
    simp only [Pc.transit]
    abel
  · rw [hpc]
    rfl
  · apply hI.knows_same <;> rfl

theorem Inv.readAcquire (hI : Inv count free s) {t : T}
    (hplace : (Pc.acquiring s.headFreeVal).SamePlace (s.pc t)) :
    Inv count free (s.read count t (.acquiring s.headFreeVal)) := by
  refine hI.read hplace ⟨hI.readsHead t _, fun hneg => ?_⟩
  have hseen : (s.read count t (.acquiring s.headFreeVal)).seen t = s.freeList count := Function.update_self ..
  rw [hseen, hI.freeList]
  exact chain_negative hI.chain hneg

theorem Inv.readRelease (hI : Inv count free s) {t : T} {idx : Nat}
    (hplace : (Pc.linking idx s.headFreeVal).SamePlace (s.pc t)) :
    Inv count free (s.read count t (.linking idx s.headFreeVal)) :=
  hI.read hplace (hI.readsHead t _)

theorem Inv.swap {s' : State T} (hI : Inv count free s)
    (hcount : count < 2 ^ 31) {t : T} {spurious : Bool} (htimely : s.swaps - s.loadedAt t < 2 ^ 32)
    (hstep : threadStep count s t (.swap spurious) = some s') : ∃ free', Inv count free' s' := by
  rw [threadStep] at hstep
  split at hstep
  · next old next hpc =>
    split at hstep <;> cases hstep
    · next hcas =>
      rw [← hcas.1] at hpc ⊢
      obtain ⟨rest, -, hpop⟩ := hI.pop hpc htimely
      exact ⟨rest, hpop⟩
    · exact ⟨free, hI.readAcquire (by rw [hpc]; exact ⟨rfl, rfl, rfl⟩)⟩
  · next idx old hpc =>
    split at hstep <;> cases hstep
    · next hcas =>
      rw [← hcas.1] at hpc ⊢
      exact ⟨idx :: free, hI.push hcount hpc⟩
    · exact ⟨free, hI.readRelease (by rw [hpc]; exact ⟨rfl, rfl, rfl⟩)⟩
  · cases hstep

theorem Inv.threadStep {s' : State T} (hI : Inv count free s)
    (hcount : count < 2 ^ 31) {t : T} {act : Act} (htimely : Timely s (.thread t act))
    (hstep : threadStep count s t act = some s') : ∃ free', Inv count free' s' := by
  cases act with
  | swap spurious => exact hI.swap hcount htimely hstep
  | load =>
    rw [Pool.threadStep] at hstep
    split at hstep <;> cases hstep
    · next hpc => exact ⟨free, hI.readAcquire (by rw [hpc]; exact ⟨rfl, rfl, rfl⟩)⟩
    · next hpc => exact ⟨free, hI.readRelease (by rw [hpc]; exact ⟨rfl, rfl, rfl⟩)⟩
  | readNext =>
    rw [Pool.threadStep] at hstep
    split at hstep
    · next old hpc =>
      split at hstep <;> cases hstep
      next hpos =>
        have hk := hI.knows t
        rw [hpc] at hk
        exact ⟨free, hI.setPc (by rw [hpc]; exact ⟨rfl, rfl, rfl⟩)
          ⟨hk.1, hpos, fun _ => rfl⟩⟩
    · cases hstep
  | giveUp =>
    rw [Pool.threadStep] at hstep
    split at hstep
    · next old hpc =>
      split at hstep <;> cases hstep
      exact ⟨free, hI.setPc (by rw [hpc]; exact ⟨rfl, rfl, rfl⟩) trivial⟩
    · cases hstep
  | link =>
    rw [Pool.threadStep] at hstep
    split at hstep <;> cases hstep
    next hpc => exact ⟨free, hI.link hpc⟩
  | finish =>
    rw [Pool.threadStep] at hstep
    split at hstep <;> cases hstep
    · next hpc => exact ⟨free, hI.handOut hpc⟩
    · next hpc => exact ⟨free, hI.countIn hpc⟩
  | release idx =>
    rw [Pool.threadStep] at hstep
    split at hstep
    · next hpc =>
      split at hstep <;> cases hstep
      next hidx => exact ⟨free, hI.giveBack hpc hidx⟩
    · cases hstep

theorem Inv.step {s' : State T} (hI : Inv count free s)
    (hcount : count < 2 ^ 31) {e : Event T} (htimely : Timely s e) (hstep : step count s e = some s') :
    ∃ free', Inv count free' s' := by
  cases e with
  | thread t act => exact hI.threadStep hcount htimely hstep
  | write idx val =>
    rw [Pool.step] at hstep
    split at hstep <;> cases hstep
    next hidx => exact ⟨free, hI.write hidx val⟩

omit [Fintype T] [DecidableEq T] in
/-- The constructor links the buffers in order. -/
theorem init_chain {count : Nat} (hcount : count < 2 ^ 31) {n i : Nat} (hn : i + (n + 1) = count) :
    Chain (init count : State T).nextIdx i (List.range' i (n + 1)) := by
  have hpos : ¬ Negative i := by
    unfold Negative
    omega
  induction n generalizing i with
  | zero =>
    refine ⟨rfl, hpos, ?_⟩
    have hnext : (init count : State T).nextIdx i = listEnd := if_neg (by omega)
    rw [hnext]
    exact (by decide : Negative listEnd)
  | succ n ih =>
    refine ⟨rfl, hpos, ?_⟩
    have hnext : (init count : State T).nextIdx i = i + 1 := if_pos (by omega)
    rw [hnext]
    apply ih (by omega)
    unfold Negative
    omega

omit [DecidableEq T] in
theorem inv_init {count : Nat} (hpos : 1 ≤ count) (hcount : count < 2 ^ 31) :
    Inv count (List.range' 0 count) (init count : State T) := by
  have hquiet {M : Type} [AddCommMonoid M] (f : Pc → M) (hf : f .idle = 0) :
      total f (init count : State T).pc = 0 := total_eq_zero fun _ => hf
  obtain ⟨n, rfl⟩ : ∃ n, count = n + 1 := ⟨count - 1, by omega⟩
  refine ⟨⟨init_chain (i := 0) hcount (Nat.zero_add _), ?_, ?_, (by decide : verOf 0 = 0 % 2 ^ 32), ?_, ?_⟩, fun _ => trivial⟩
  · rw [hquiet Pc.transit rfl, ← List.range_eq_range']
    change (Multiset.range (n + 1)) + 0 + 0 = _
    rw [add_zero, add_zero]
  · intro i
    change (if i + 1 < n + 1 then i + 1 else listEnd) < 2 ^ 32
    unfold listEnd
    split <;> omega
  · change n + 1 < 2 ^ 64
    omega
  · rw [hquiet Pc.lends rfl, hquiet Pc.owes rfl, List.length_range']
    rfl

theorem inv_of_reachable {count : Nat} (hpos : 1 ≤ count) (hcount : count < 2 ^ 31) {s : State T}
    (h : Reachable count s) : ∃ free, Inv count free s := by
  induction h with
  | init => exact ⟨_, inv_init hpos hcount⟩
  | step h e htimely hstep ih =>
    obtain ⟨free, hI⟩ := ih
    exact hI.step hcount htimely hstep

/-- What users of the pool rely on. -/
structure Safe (count : Nat) (s : State T) : Prop where
  /-- The chain from the head is finite. -/
  chain : Chain s.nextIdx (idxOf s.headFreeVal) (s.freeList count)
  nodup : (s.freeList count).Nodup
  below : ∀ i ∈ s.freeList count, i < count
  apart : ∀ i ∈ s.freeList count, i ∉ s.held ∧ ∀ t, i ∉ (s.pc t).transit
  /-- Every buffer is free, held or in transit, exactly once. -/
  places : (s.freeList count : Multiset Nat) + (s.held : Multiset Nat) + total Pc.transit s.pc
    = Multiset.range count
  /-- `acquire` returns no held buffer. -/
  acquired : ∀ t i, s.pc t = .popped i → i ∉ s.held
  /-- `acquire` returns the empty handle only if the list was empty when it last read the head. -/
  empty : ∀ t old, s.pc t = .acquiring old → Negative (idxOf old) → s.seen t = []
  available : (∀ t, s.pc t = .idle) → s.available = (s.freeList count).length

omit [DecidableEq T] in
theorem Inv.available_idle (hI : Inv count free s)
    (hcount : count < 2 ^ 31) (hidle : ∀ t, s.pc t = .idle) : s.available = free.length := by
  have hcounted := hI.counted
  have hlends : total Pc.lends s.pc = 0 := total_eq_zero fun t => by rw [hidle]; rfl
  have howes : total Pc.owes s.pc = 0 := total_eq_zero fun t => by rw [hidle]; rfl
  rw [hlends, howes] at hcounted
  have := hI.available
  have := hI.length_le
  omega

/-- **Single ownership.** In every timely interleaving of any threads' operations on a pool of
`1 ≤ count < 2 ^ 31` buffers, with owners writing what they like into the buffers they hold, no
buffer ever has two owners and none is lost. -/
theorem pool_safe {count : Nat} (hpos : 1 ≤ count) (hcount : count < 2 ^ 31) {s : State T}
    (h : Reachable count s) : Safe count s := by
  obtain ⟨free, hI⟩ := inv_of_reachable hpos hcount h
  have hnodup := hI.nodup
  rw [Multiset.nodup_add, Multiset.nodup_add] at hnodup
  obtain ⟨⟨hfree, -, hheld⟩, -, htransit⟩ := hnodup
  have hlist := hI.freeList
  refine ⟨?_, ?_, ?_, ?_, ?_, ?_, ?_, ?_⟩
  · rw [hlist]
    exact hI.chain
  · rw [hlist]
    exact Multiset.coe_nodup.mp hfree
  · intro i hi
    rw [hlist] at hi
    exact hI.below (Multiset.mem_add.mpr (Or.inl (Multiset.mem_add.mpr (Or.inl hi))))
  · intro i hi
    rw [hlist] at hi
    exact ⟨fun hmem => (hI.held_apart hmem).1 hi, fun t hmem => (hI.transit_apart hmem).1 hi⟩
  · rw [hlist]
    exact hI.places
  · intro t i hpc
    exact (hI.transit_apart (t := t) (by rw [hpc]; exact Multiset.mem_singleton_self i)).2.1
  · intro t old hpc hneg
    have hk := hI.knows t
    rw [hpc] at hk
    exact hk.2 hneg
  · intro hidle
    rw [hlist]
    exact hI.available_idle hcount hidle

/-- Thread 0 stalls after loading the head; thread 1 takes buffer 0 and its owner overwrites the link;
thread 0 reads the garbage, and its exchange fails. -/
theorem stalled_acquire_safe :
    ∃ s : State (Fin 2), Reachable 2 s ∧ s.held = [0] ∧ s.nextIdx 0 = 77 ∧
      s.pc 0 = .acquiring (2 ^ 32 + 1) ∧ Safe 2 s := by
  have h0 : Reachable 2 (init 2 : State (Fin 2)) := .init
  have h1 := h0.step (.thread 0 .load) trivial rfl
  have h2 := h1.step (.thread 1 .load) trivial rfl
  have h3 := h2.step (.thread 1 .readNext) trivial rfl
  have h4 := h3.step (.thread 1 (.swap false)) (by change _ < 2 ^ 32; decide) rfl
  have h5 := h4.step (.thread 1 .finish) trivial rfl
  have h6 := h5.step (.write 0 77) trivial rfl
  have h7 := h6.step (.thread 0 .readNext) trivial rfl
  have h8 := h7.step (.thread 0 (.swap false)) (by change _ < 2 ^ 32; decide) rfl
  exact ⟨_, h8, rfl, rfl, rfl, pool_safe (by decide) (by decide) h8⟩

omit [DecidableEq T] in
/-- The buffers in the list and those popped but not counted are no more than there are. -/
theorem Books.counted_le (hB : Books count free s) : free.length + total Pc.owes s.pc ≤ count := by
  have hcard := congrArg Multiset.card hB.places
  simp only [Multiset.card_add, Multiset.coe_card, Multiset.card_range] at hcard
  have howes : total Pc.owes s.pc ≤ (total Pc.transit s.pc).card := by
    apply total_le_card
    intro p
    cases p with
    | popped idx => exact Nat.le_refl 1
    | idle | acquiring _ | popping _ _ | releasing _ | linking _ _ | pushing _ _ | pushed _ => exact Nat.zero_le _
  omega

/-- **The counter while operations are under way.** The counter is what is in the list and what was popped but not
yet counted, less what was pushed but not yet counted. As long as the last is no more than the others together, it does
not wrap and stays within the size of the pool. -/
theorem available_le_count {count : Nat} (hpos : 1 ≤ count) (hcount : count < 2 ^ 31) {s : State T} (h : Reachable count s)
    (hlends : total Pc.lends s.pc ≤ (s.freeList count).length + total Pc.owes s.pc) :
    s.available + total Pc.lends s.pc = (s.freeList count).length + total Pc.owes s.pc ∧ s.available ≤ count := by
  obtain ⟨free, hI⟩ := inv_of_reachable hpos hcount h
  have hbound := hI.counted_le
  have hcounted := hI.counted
  have havailable := hI.available
  rw [hI.freeList] at hlends ⊢
  omega

/-- Thread 0 takes the only buffer and gives it back, and thread 1 pops it before thread 0 has counted it. -/
theorem overtaken_release : ∃ s : State (Fin 2), Reachable 1 s ∧ s.pc 0 = .pushed 0 ∧ s.pc 1 = .popped 0 ∧
    s.available = 0 ∧ s.freeList 1 = [] := by
  have h0 : Reachable 1 (init 1 : State (Fin 2)) := .init
  have h1 := h0.step (.thread 0 .load) trivial rfl
  have h2 := h1.step (.thread 0 .readNext) trivial rfl
  have h3 := h2.step (.thread 0 (.swap false)) (by change _ < 2 ^ 32; decide) rfl
  have h4 := h3.step (.thread 0 .finish) trivial rfl
  have h5 := h4.step (.thread 0 (.release 0)) trivial rfl
  have h6 := h5.step (.thread 0 .load) trivial rfl
  have h7 := h6.step (.thread 0 .link) trivial rfl
  have h8 := h7.step (.thread 0 (.swap false)) (by change _ < 2 ^ 32; decide) rfl
  have h9 := h8.step (.thread 1 .load) trivial rfl
  have h10 := h9.step (.thread 1 .readNext) trivial rfl
  have h11 := h10.step (.thread 1 (.swap false)) (by change _ < 2 ^ 32; decide) rfl
  exact ⟨_, h11, rfl, rfl, rfl, rfl⟩

theorem overtaken_available_le_count : ∃ s : State (Fin 2), Reachable 1 s ∧ s.pc 0 = .pushed 0 ∧ s.pc 1 = .popped 0 ∧
    s.available ≤ 1 := by
  obtain ⟨s, hs, hpushed, hpopped, -, hfree⟩ := overtaken_release
  have hlends : total Pc.lends s.pc = 1 := by
    rw [total, Fin.sum_univ_two, hpushed, hpopped]
    rfl
  have howes : total Pc.owes s.pc = 1 := by
    rw [total, Fin.sum_univ_two, hpushed, hpopped]
    rfl
  have hbounded := available_le_count (by decide) (by decide) hs (by rw [hlends, howes, hfree]; decide)
  exact ⟨s, hs, hpushed, hpopped, hbounded.2⟩

/-- Thread 1 counts the buffer out before thread 0 has counted it in, and the counter wraps. -/
theorem overtaken_available_wraps : ∃ s : State (Fin 2), Reachable 1 s ∧ s.available = 2 ^ 64 - 1 ∧ ¬ s.available ≤ 1 := by
  obtain ⟨s, hs, -, hpopped, havailable, -⟩ := overtaken_release
  have hfinish : step 1 s (.thread 1 .finish) = some { s.setPc 1 .idle with
      available := (s.available + (2 ^ 64 - 1)) % 2 ^ 64, held := 0 :: s.held } := by
    rw [step, threadStep, hpopped]
  refine ⟨_, hs.step (.thread 1 .finish) trivial hfinish, ?_, ?_⟩
  · change (s.available + (2 ^ 64 - 1)) % 2 ^ 64 = 2 ^ 64 - 1
    rw [havailable]
    decide
  · change ¬ (s.available + (2 ^ 64 - 1)) % 2 ^ 64 ≤ 1
    rw [havailable]
    decide

end Lepton.Pool
