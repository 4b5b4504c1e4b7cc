import Lepton.Owners

/-! The callbacks of the sessions and the hooks of the loop are `inplace_function`s. Such a function keeps a closure of any
type in storage of its own, and beside it a pointer to the operations of that type; the storage is raw memory, in which
closures are constructed, relocated and destroyed by hand. For its users it is a variable that holds a closure or none. -/

namespace Lepton.Inplace

open Function Owners

/-- A closure: its type, and what it has captured. -/
structure Closure (K V : Type) where
  kind : K
  captured : V
  deriving DecidableEq, Repr

/-- A storage: that of a function, or the one temporary of an assignment or a swap. -/
abbrev Place (N : Type) := Option N

/-- The calls of functions. -/
structure Calls (N K V : Type) where
  /-- Those in progress, the innermost first: the function, and the number of its closure. -/
  active : List (N × Nat) := []
  /-- History: the closures called, the latest first; `none` is a `bad_function_call`. -/
  made : List (Option (Closure K V)) := []

structure Memory (N K V : Type) where
  /-- The closures there are or were, numbered as they are constructed, and the storages that hold them. -/
  objects : Objects (Place N) := ⟨0, [], fun _ => none⟩
  /-- The closures by their numbers. -/
  closures : List (Closure K V) := []
  /-- The `vtable_ptr_` of every function there is; the inner `none` is `empty_vtable`. -/
  vtables : Place N → Option (Option K) := fun _ => none
  calls : Calls N K V := {}
  /-- Uses of a vtable on a storage that holds no closure of its type, closures constructed over another, and closures that
  are gone before their call ends. -/
  faults : Nat := 0

variable {N K V : Type} [DecidableEq N] [DecidableEq K]

namespace Memory

/-- The closure in a storage. -/
def held (m : Memory N K V) (p : Place N) : Option (Closure K V) := (m.objects.holds p).bind (m.closures[·]?)

def fault (m : Memory N K V) : Memory N K V := { m with faults := m.faults + 1 }

/-- `::new (p) C{...}`. -/
def place (m : Memory N K V) (p : Place N) (c : Closure K V) : Memory N K V :=
  { m with
    objects :=
      { m.objects with made := m.objects.made + 1, holds := update m.objects.holds p (some m.objects.made) }
    closures := m.closures ++ [c]
    faults := m.faults + if (m.objects.holds p).isSome then 1 else 0 }

/-- `~C()`. -/
def destroy (m : Memory N K V) (p : Place N) : Memory N K V :=
  match m.objects.holds p with
  | some a =>
    { m with objects := { m.objects with freed := a :: m.objects.freed, holds := update m.objects.holds p none } }
  | none => m.fault

/-- An entry of a vtable: that of `empty_vtable` does nothing, the others do `f` to the closure in `p`. -/
def entry (m : Memory N K V) (vt : Option K) (p : Place N) (f : Closure K V → Memory N K V) : Memory N K V :=
  match vt with
  | none => m
  | some k =>
    match m.held p with
    | some c => if c.kind = k then f c else m.fault
    | none => m.fault

def copyPtr (m : Memory N K V) (vt : Option K) (dst src : Place N) : Memory N K V := m.entry vt src (m.place dst)

def relocatePtr (m : Memory N K V) (vt : Option K) (dst src : Place N) : Memory N K V :=
  m.entry vt src fun c => (m.place dst c).destroy src

def destructorPtr (m : Memory N K V) (vt : Option K) (p : Place N) : Memory N K V := m.entry vt p fun _ => m.destroy p

/-- A call of function `a` begins; that of `empty_vtable` throws at once. -/
def invokePtr (m : Memory N K V) (vt : Option K) (a : N) : Memory N K V :=
  match vt with
  | none => { m with calls := { m.calls with made := none :: m.calls.made } }
  | some _ =>
    m.entry vt (some a) fun c =>
      { m with calls := ⟨(m.objects.holds (some a)).toList.map (a, ·) ++ m.calls.active, some c :: m.calls.made⟩ }

/-- The innermost call ends. -/
def leave (m : Memory N K V) : Memory N K V :=
  match m.calls.active with
  | [] => m
  | (a, n) :: outer =>
    { m with
      calls := { m.calls with active := outer }
      faults := m.faults + if m.objects.holds (some a) = some n then 0 else 1 }

def setVtable (m : Memory N K V) (p : Place N) (vt : Option (Option K)) : Memory N K V :=
  { m with vtables := update m.vtables p vt }

/-- The vtable that a function points to. -/
def vtable (m : Memory N K V) (p : Place N) : Option K := (m.vtables p).join

/-- The constructors without an argument and from `nullptr`. -/
def construct (m : Memory N K V) (p : Place N) : Memory N K V := m.setVtable p (some none)

def constructFrom (m : Memory N K V) (p : Place N) (c : Closure K V) : Memory N K V :=
  (m.setVtable p (some (some c.kind))).place p c

def copyConstruct (m : Memory N K V) (p q : Place N) : Memory N K V :=
  (m.setVtable p (some (m.vtable q))).copyPtr (m.vtable q) p q

def moveConstruct (m : Memory N K V) (p q : Place N) : Memory N K V :=
  ((m.setVtable q (some none)).setVtable p (some (m.vtable q))).relocatePtr (m.vtable q) p q

def destruct (m : Memory N K V) (p : Place N) : Memory N K V := (m.destructorPtr (m.vtable p) p).setVtable p none

def assignNull (m : Memory N K V) (p : Place N) : Memory N K V :=
  (m.destructorPtr (m.vtable p) p).setVtable p (some none)

/-- `operator=(inplace_function other)`, where the temporary is `other`; it is destroyed at the end. -/
def assign (m : Memory N K V) (p : Place N) : Memory N K V :=
  let m := m.destructorPtr (m.vtable p) p
  let vt := m.vtable none
  (((m.setVtable none (some none)).setVtable p (some vt)).relocatePtr vt p none).destruct none

/-- `p.swap(q)`, where the temporary is `tmp`. -/
def swap (m : Memory N K V) (p q : Place N) : Memory N K V :=
  if p = q then m
  else
    let moved := ((m.relocatePtr (m.vtable p) none p).relocatePtr (m.vtable q) p q).relocatePtr (m.vtable p) q none
    (moved.setVtable p (some (m.vtable q))).setVtable q (some (m.vtable p))

end Memory

inductive Op (N K V : Type) where
  | construct (a : N)
  | constructFrom (a : N) (c : Closure K V)
  /-- The copy constructor of a closure may throw. -/
  | copyConstruct (a b : N) (throws : Bool)
  | moveConstruct (a b : N)
  | assignNull (a : N)
  | assignFrom (a : N) (c : Closure K V)
  | assignCopy (a b : N) (throws : Bool)
  | assignMove (a b : N)
  | swap (a b : N)
  | destruct (a : N)
  /-- A call begins; what follows until it ends is done by the closure. -/
  | enter (a : N)
  | leave

namespace Op

/-- What the language asks of an operation: it constructs a function where none is, or is applied to those there are. -/
def living (there : N → Bool) : Op N K V → Bool
  | .construct a | .constructFrom a _ => !there a
  | .copyConstruct a b _ | .moveConstruct a b => !there a && there b
  | .assignNull a | .assignFrom a _ | .destruct a | .enter a => there a
  | .assignCopy a b _ | .assignMove a b | .swap a b => there a && there b
  | .leave => true

/-- The functions whose storage an operation writes. -/
def writes : Op N K V → List N
  | .construct _ | .enter _ | .leave => []
  | .constructFrom a _ | .copyConstruct a _ _ | .assignNull a | .assignFrom a _ | .assignCopy a _ _ | .destruct a => [a]
  | .moveConstruct a b | .assignMove a b | .swap a b => [a, b]

/-- And what the functions ask: a closure does not write the one it is in while it runs. -/
def allowed (there : N → Bool) (running : List N) (op : Op N K V) : Bool :=
  op.living there && op.writes.all (· ∉ running)

end Op

namespace Memory

def there (m : Memory N K V) (a : N) : Bool := (m.vtables (some a)).isSome

/-- The functions that are being called. -/
def running (m : Memory N K V) : List N := m.calls.active.map Prod.fst

def step (m : Memory N K V) : Op N K V → Memory N K V
  | .construct a => m.construct (some a)
  | .constructFrom a c => m.constructFrom (some a) c
  | .copyConstruct a b throws =>
    if throws ∧ (m.vtable (some b)).isSome then m else m.copyConstruct (some a) (some b)
  | .moveConstruct a b => m.moveConstruct (some a) (some b)
  | .assignNull a => m.assignNull (some a)
  | .assignFrom a c => (m.constructFrom none c).assign (some a)
  | .assignCopy a b throws =>
    if throws ∧ (m.vtable (some b)).isSome then m else (m.copyConstruct none (some b)).assign (some a)
  | .assignMove a b => (m.moveConstruct none (some b)).assign (some a)
  | .swap a b => m.swap (some a) (some b)
  | .destruct a => m.destruct (some a)
  | .enter a => m.invokePtr (m.vtable (some a)) a
  | .leave => m.leave

def run (m : Memory N K V) : List (Op N K V) → Option (Memory N K V)
  | [] => some m
  | op :: ops => if op.allowed m.there m.running then (m.step op).run ops else none

end Memory

/-! ### What a function is for -/

/-- Variables, each of which holds a closure or none. -/
structure Values (N K V : Type) where
  value : N → Option (Option (Closure K V)) := fun _ => none
  running : List N := []
  calls : List (Option (Closure K V)) := []

namespace Values

def there (s : Values N K V) (a : N) : Bool := (s.value a).isSome

def set (s : Values N K V) (a : N) (x : Option (Option (Closure K V))) : Values N K V :=
  { s with value := update s.value a x }

def step (s : Values N K V) : Op N K V → Values N K V
  | .construct a | .assignNull a => s.set a (some none)
  | .constructFrom a c | .assignFrom a c => s.set a (some (some c))
  | .copyConstruct a b throws | .assignCopy a b throws =>
    if throws ∧ (s.value b).join.isSome then s else s.set a (s.value b)
  | .moveConstruct a b => (s.set b (some none)).set a (s.value b)
  | .assignMove a b => (s.set b (some none)).set a (s.value b)
  | .swap a b => (s.set b (s.value a)).set a (s.value b)
  | .destruct a => s.set a none
  | .enter a =>
    { s with
      calls := (s.value a).join :: s.calls
      running := if (s.value a).join.isSome then a :: s.running else s.running }
  | .leave => { s with running := s.running.tail }

def run (s : Values N K V) : List (Op N K V) → Option (Values N K V)
  | [] => some s
  | op :: ops => if op.allowed s.there s.running then (s.step op).run ops else none

end Values

namespace Memory

/-- What the users of the functions see. -/
def view (m : Memory N K V) : Values N K V :=
  ⟨fun a => (m.vtables (some a)).map fun _ => m.held (some a), m.running, m.calls.made⟩

/-! ### The storages -/

/-- The memory is in order, and this is what its storages and vtables are. -/
structure Is (m : Memory N K V) (held : Place N → Option (Closure K V)) (vtables : Place N → Option (Option K))
    (calls : Calls N K V) : Prop where
  sound : Sound m.objects
  count : m.closures.length = m.objects.made
  fine : m.faults = 0
  held : m.held = held
  vtables : m.vtables = vtables
  calls : m.calls = calls

variable {m : Memory N K V} {f : Place N → Option (Closure K V)} {v : Place N → Option (Option K)}
  {calls : Calls N K V} {p q : Place N}

omit [DecidableEq N] [DecidableEq K] in
theorem Is.empty_iff (h : Is m f v calls) : m.objects.holds p = none ↔ f p = none := by
  rw [← h.held, Memory.held]
  cases hp : m.objects.holds p with
  | none => exact ⟨fun _ => rfl, fun _ => rfl⟩
  | some a =>
    have hlt : a < m.closures.length := h.count ▸ (h.sound.live p a hp).1
    rw [Option.bind_some, List.getElem?_eq_getElem hlt]
    exact ⟨nofun, nofun⟩

omit [DecidableEq K] in
theorem Is.setVtable (h : Is m f v calls) (p : Place N) (vt : Option (Option K)) :
    Is (m.setVtable p vt) f (update v p vt) calls :=
  ⟨h.sound, h.count, h.fine, h.held, by rw [← h.vtables]; rfl, h.calls⟩

omit [DecidableEq K] in
theorem Is.place (h : Is m f v calls) (hp : f p = none) (c : Closure K V) :
    Is (m.place p c) (update f p (some c)) v calls := by
  have hempty := h.empty_iff.mpr hp
  refine ⟨h.sound.make hempty, ?_, ?_, ?_, h.vtables, h.calls⟩
  · change (m.closures ++ [c]).length = m.objects.made + 1
    rw [List.length_append, h.count]
    rfl
  · change m.faults + (if (m.objects.holds p).isSome then 1 else 0) = 0
    rw [hempty, h.fine]
    rfl
  · funext r
    change (update m.objects.holds p (some m.objects.made) r).bind ((m.closures ++ [c])[·]?) = _
    by_cases hr : r = p
    · subst hr
      rw [update_self, update_self, Option.bind_some, ← h.count]
      exact List.getElem?_concat_length
    · rw [update_of_ne hr, update_of_ne hr, ← h.held, Memory.held]
      cases hheld : m.objects.holds r with
      | none => rfl
      | some a =>
        have hlt : a < m.closures.length := h.count ▸ (h.sound.live r a hheld).1
        exact List.getElem?_append_left hlt

omit [DecidableEq K] in
theorem Is.destroy (h : Is m f v calls) (hp : f p ≠ none) : Is (m.destroy p) (update f p none) v calls := by
  have hfull : m.objects.holds p ≠ none := fun hempty => hp (h.empty_iff.mp hempty)
  unfold Memory.destroy
  cases hheld : m.objects.holds p with
  | none => exact absurd hheld hfull
  | some a =>
    refine ⟨h.sound.free hheld, h.count, h.fine, ?_, h.vtables, h.calls⟩
    funext r
    change (update m.objects.holds p none r).bind (m.closures[·]?) = _
    by_cases hr : r = p
    · subst hr
      rw [update_self, update_self]
      rfl
    · rw [update_of_ne hr, update_of_ne hr, ← h.held]
      rfl

omit [DecidableEq N] in
/-- A vtable is used on a closure of its type. -/
theorem Is.entry (h : Is m f v calls) {vt : Option K} (hvt : (f p).map Closure.kind = vt)
    (g : Closure K V → Memory N K V) : m.entry vt p g = (f p).elim m g := by
  have hheld : m.held p = f p := congrFun h.held p
  subst hvt
  cases hp : f p with
  | none => rfl
  | some c =>
    rw [hp] at hheld
    change (match m.held p with
      | some c' => if c'.kind = c.kind then g c' else m.fault
      | none => m.fault) = g c
    rw [hheld]
    exact if_pos rfl

theorem Is.copyPtr (h : Is m f v calls) {vt : Option K} (hvt : (f q).map Closure.kind = vt) (hp : f p = none) :
    Is (m.copyPtr vt p q) (update f p (f q)) v calls := by
  rw [Memory.copyPtr, h.entry hvt]
  cases hq : f q with
  | none =>
    rw [update_eq_self_iff.mpr hp.symm]
    exact h
  | some c => exact h.place hp c

theorem Is.relocatePtr (h : Is m f v calls) {vt : Option K} (hvt : (f q).map Closure.kind = vt) (hp : f p = none)
    (hne : p ≠ q) : Is (m.relocatePtr vt p q) (update (update f p (f q)) q none) v calls := by
  rw [Memory.relocatePtr, h.entry hvt]
  cases hq : f q with
  | none =>
    have hsame : update f p none = f := update_eq_self_iff.mpr hp.symm
    rw [hsame, update_eq_self_iff.mpr hq.symm]
    exact h
  | some c =>
    refine (h.place hp c).destroy ?_
    rw [update_of_ne hne.symm, hq]
    exact nofun

theorem Is.destructorPtr (h : Is m f v calls) {vt : Option K} (hvt : (f p).map Closure.kind = vt) :
    Is (m.destructorPtr vt p) (update f p none) v calls := by
  rw [Memory.destructorPtr, h.entry hvt]
  cases hp : f p with
  | none =>
    rw [update_eq_self_iff.mpr hp.symm]
    exact h
  | some c => exact h.destroy (by rw [hp]; exact nofun)

omit [DecidableEq N] in
theorem Is.invokePtr (h : Is m f v calls) {vt : Option K} {a : N} (hvt : (f (some a)).map Closure.kind = vt) :
    Is (m.invokePtr vt a) f v
      ⟨(m.objects.holds (some a)).toList.map (a, ·) ++ calls.active, f (some a) :: calls.made⟩ := by
  have hcalled (new : Calls N K V) : Is { m with calls := new } f v new :=
    ⟨h.sound, h.count, h.fine, h.held, h.vtables, rfl⟩
  rw [← h.calls]
  cases ha : f (some a) with
  | none =>
    rw [h.empty_iff.mpr ha]
    rw [ha] at hvt
    subst hvt
    exact hcalled _
  | some c =>
    have hkind : (f (some a)).map Closure.kind = some c.kind := by rw [ha]; rfl
    obtain rfl : some c.kind = vt := hkind.symm.trans hvt
    have hentry := h.entry hkind fun c =>
      { m with calls := ⟨(m.objects.holds (some a)).toList.map (a, ·) ++ m.calls.active, some c :: m.calls.made⟩ }
    rw [ha] at hentry
    have hinvoked : m.invokePtr (some c.kind) a = _ := hentry
    rw [hinvoked]
    exact hcalled _

/-! ### What is not written stays -/

/-- Every storage but those in `ps` holds the closure that it held. -/
def Keeps (ps : List (Place N)) (m m' : Memory N K V) : Prop :=
  m'.calls = m.calls ∧ ∀ r, r ∉ ps → m'.objects.holds r = m.objects.holds r

variable {m' m'' : Memory N K V} {ps qs : List (Place N)}

omit [DecidableEq N] [DecidableEq K] in
theorem Keeps.refl (m : Memory N K V) : Keeps ps m m := ⟨rfl, fun _ _ => rfl⟩

omit [DecidableEq N] [DecidableEq K] in
theorem Keeps.trans (h : Keeps ps m m') (h' : Keeps ps m' m'') : Keeps ps m m'' :=
  ⟨h'.1.trans h.1, fun r hr => (h'.2 r hr).trans (h.2 r hr)⟩

omit [DecidableEq K] in
theorem keeps_place (hp : p ∈ ps) (c : Closure K V) : Keeps ps m (m.place p c) :=
  ⟨rfl, fun r hr => update_of_ne (fun heq : r = p => hr (heq ▸ hp)) ..⟩

omit [DecidableEq K] in
theorem keeps_destroy (hp : p ∈ ps) : Keeps ps m (m.destroy p) := by
  unfold destroy
  split
  · exact ⟨rfl, fun r hr => update_of_ne (fun heq : r = p => hr (heq ▸ hp)) ..⟩
  · exact .refl m

omit [DecidableEq N] in
theorem keeps_entry {vt : Option K} {g : Closure K V → Memory N K V} (hg : ∀ c, Keeps ps m (g c)) :
    Keeps ps m (m.entry vt p g) := by
  unfold entry
  split
  · exact .refl m
  · split
    · split
      · exact hg _
      · exact .refl m
    · exact .refl m

theorem keeps_copyPtr {vt : Option K} (hp : p ∈ ps) : Keeps ps m (m.copyPtr vt p q) := keeps_entry (keeps_place hp)

theorem keeps_relocatePtr {vt : Option K} (hp : p ∈ ps) (hq : q ∈ ps) : Keeps ps m (m.relocatePtr vt p q) :=
  keeps_entry fun c => (keeps_place hp c).trans (keeps_destroy hq)

theorem keeps_destructorPtr {vt : Option K} (hp : p ∈ ps) : Keeps ps m (m.destructorPtr vt p) :=
  keeps_entry fun _ => keeps_destroy hp

omit [DecidableEq K] in
theorem keeps_setVtable (vt : Option (Option K)) : Keeps ps m (m.setVtable p vt) := ⟨rfl, fun _ _ => rfl⟩

theorem keeps_assign (hp : p ∈ ps) (hnone : none ∈ ps) : Keeps ps m (m.assign p) :=
  (keeps_destructorPtr hp).trans <| (keeps_setVtable _).trans <| (keeps_setVtable _).trans <|
    (keeps_relocatePtr hp hnone).trans <| (keeps_destructorPtr hnone).trans (keeps_setVtable _)

/-- An operation other than a call writes the functions that it names, and the temporary. -/
theorem keeps_step (m : Memory N K V) (op : Op N K V) (henter : ∀ a, op ≠ .enter a) (hleave : op ≠ .leave) :
    Keeps (none :: op.writes.map some) m (m.step op) := by
  have hfirst {p : Place N} {ps : List (Place N)} : p ∈ none :: p :: ps := List.mem_cons_of_mem _ List.mem_cons_self
  have hsecond {p q : Place N} : q ∈ [none, p, q] := List.mem_cons_of_mem _ (List.mem_cons_of_mem _ List.mem_cons_self)
  have htemp {ps : List (Place N)} : none ∈ none :: ps := List.mem_cons_self
  cases op with
  | construct a => exact keeps_setVtable _
  | constructFrom a c => exact (keeps_setVtable _).trans (keeps_place hfirst c)
  | copyConstruct a b throws =>
    rw [step]
    split
    · exact .refl m
    · exact (keeps_setVtable _).trans (keeps_copyPtr hfirst)
  | moveConstruct a b =>
    exact (keeps_setVtable _).trans <| (keeps_setVtable _).trans <| keeps_relocatePtr hfirst hsecond
  | assignNull a => exact (keeps_destructorPtr hfirst).trans (keeps_setVtable _)
  | assignFrom a c => exact (keeps_setVtable _).trans <| (keeps_place htemp c).trans <| keeps_assign hfirst htemp
  | assignCopy a b throws =>
    rw [step]
    split
    · exact .refl m
    · exact (keeps_setVtable _).trans <| (keeps_copyPtr htemp).trans <| keeps_assign hfirst htemp
  | assignMove a b =>
    exact (keeps_setVtable _).trans <| (keeps_setVtable _).trans <| (keeps_relocatePtr htemp hsecond).trans <|
      keeps_assign hfirst htemp
  | swap a b =>
    rw [step, swap]
    split
    · exact .refl m
    · exact (keeps_relocatePtr htemp hfirst).trans <| (keeps_relocatePtr hfirst hsecond).trans <|
        (keeps_relocatePtr hsecond htemp).trans <| (keeps_setVtable _).trans (keeps_setVtable _)
  | destruct a => exact (keeps_destructorPtr hfirst).trans (keeps_setVtable _)
  | enter a => exact absurd rfl (henter a)
  | leave => exact absurd rfl hleave

/-! ### The functions -/

/-- Every vtable is that of the closure beside it. -/
def Typed (f : Place N → Option (Closure K V)) (v : Place N → Option (Option K)) : Prop :=
  ∀ p, (f p).map Closure.kind = (v p).join

omit [DecidableEq K] in
theorem Typed.update (h : Typed f v) {x : Option (Closure K V)} {y : Option (Option K)} (hxy : x.map Closure.kind = y.join)
    (p : Place N) : Typed (update f p x) (update v p y) := by
  intro r
  by_cases hr : r = p
  · subst hr
    rw [update_self, update_self]
    exact hxy
  · rw [update_of_ne hr, update_of_ne hr]
    exact h r

omit [DecidableEq N] [DecidableEq K] in
/-- Where there is no function there is no closure. -/
theorem Typed.empty (h : Typed f v) (hv : v p = none) : f p = none := by
  have hp := h p
  rw [hv] at hp
  exact Option.map_eq_none_iff.mp hp

omit [DecidableEq N] [DecidableEq K] in
theorem Is.kind_eq (h : Is m f v calls) (ht : Typed f v) (p : Place N) : (f p).map Closure.kind = m.vtable p := by
  rw [Memory.vtable, h.vtables]
  exact ht p

omit [DecidableEq K] in
theorem Is.constructFrom (h : Is m f v calls) (hp : f p = none) (c : Closure K V) :
    Is (m.constructFrom p c) (update f p (some c)) (update v p (some (some c.kind))) calls :=
  (h.setVtable p _).place hp c

theorem Is.copyConstruct (h : Is m f v calls) (ht : Typed f v) (hp : f p = none) :
    Is (m.copyConstruct p q) (update f p (f q)) (update v p (some (m.vtable q))) calls :=
  (h.setVtable p _).copyPtr (h.kind_eq ht q) hp

theorem Is.moveConstruct (h : Is m f v calls) (ht : Typed f v) (hp : f p = none) (hne : p ≠ q) :
    Is (m.moveConstruct p q) (update (update f q none) p (f q)) (update (update v q (some none)) p (some (m.vtable q)))
      calls := by
  rw [update_comm hne.symm]
  exact ((h.setVtable q _).setVtable p _).relocatePtr (h.kind_eq ht q) hp hne

theorem Is.destruct (h : Is m f v calls) (ht : Typed f v) (p : Place N) :
    Is (m.destruct p) (update f p none) (update v p none) calls :=
  (h.destructorPtr (h.kind_eq ht p)).setVtable p none

theorem Is.assignNull (h : Is m f v calls) (ht : Typed f v) (p : Place N) :
    Is (m.assignNull p) (update f p none) (update v p (some none)) calls :=
  (h.destructorPtr (h.kind_eq ht p)).setVtable p (some none)

/-- The closure of the temporary takes the place of the old one. -/
theorem Is.assign (h : Is m f v calls) (ht : Typed f v) (hp : p ≠ none) :
    Is (m.assign p) (update (update f p (f none)) none none) (update (update v p (some (m.vtable none))) none none)
      calls := by
  have hfreed := h.destructorPtr (h.kind_eq ht p)
  have hvtable : (m.destructorPtr (m.vtable p) p).vtable none = m.vtable none := by
    rw [Memory.vtable, hfreed.vtables, ← h.vtables]
    rfl
  unfold Memory.assign
  dsimp only
  rw [hvtable]
  have hold : update f p none none = f none := update_of_ne hp.symm ..
  have hkind : (update f p none none).map Closure.kind = m.vtable none := by
    rw [hold]
    exact h.kind_eq ht none
  have hmoved := ((hfreed.setVtable none (some none)).setVtable p (some (m.vtable none))).relocatePtr hkind (update_self ..) hp
  rw [hold, update_idem] at hmoved
  have hempty : Typed (update (update f p (f none)) none none)
      (update (update v none (some none)) p (some (m.vtable none))) := by
    rw [update_comm hp]
    exact (ht.update (x := none) (y := some none) rfl none).update (y := some _) (h.kind_eq ht none) p
  have hdone := hmoved.destruct hempty none
  rw [update_idem, update_comm hp.symm, update_idem] at hdone
  exact hdone

theorem Is.swap (h : Is m f v calls) (ht : Typed f v) (htemp : f none = none) (hp : p ≠ none) (hq : q ≠ none)
    (hne : p ≠ q) :
    Is (m.swap p q) (update (update f q (f p)) p (f q))
      (update (update v q (some (m.vtable p))) p (some (m.vtable q))) calls := by
  have hout := h.relocatePtr (h.kind_eq ht p) htemp hp.symm
  have hq₁ : update (update f none (f p)) p none q = f q := by rw [update_of_ne hne.symm, update_of_ne hq]
  have hkind : (update (update f none (f p)) p none q).map Closure.kind = m.vtable q := by
    rw [hq₁]
    exact h.kind_eq ht q
  have hover := hout.relocatePtr hkind (update_self ..) hne
  rw [hq₁, update_idem] at hover
  have htemp₁ : update (update (update f none (f p)) p (f q)) q none none = f p := by
    rw [update_of_ne hq.symm, update_of_ne hp.symm, update_self]
  have hkind₁ : (update (update (update f none (f p)) p (f q)) q none none).map Closure.kind = m.vtable p := by
    rw [htemp₁]
    exact h.kind_eq ht p
  have hback := hover.relocatePtr hkind₁ (update_self ..) hq
  rw [htemp₁, update_idem] at hback
  -- the temporary is empty again
  have hheld : update (update (update (update f none (f p)) p (f q)) q (f p)) none none
      = update (update f q (f p)) p (f q) := by
    have hsame : update f none none = f := update_eq_self_iff.mpr htemp.symm
    rw [update_comm hq, update_comm hp, update_idem, hsame, update_comm hne]
  rw [hheld] at hback
  have hvtables : update (update v q (some (m.vtable p))) p (some (m.vtable q))
      = update (update v p (some (m.vtable q))) q (some (m.vtable p)) := update_comm hne.symm ..
  rw [Memory.swap, if_neg hne, hvtables]
  exact (hback.setVtable p _).setVtable q _

/-! ### The view of the users -/

def viewOf (f : Place N → Option (Closure K V)) (v : Place N → Option (Option K)) (calls : Calls N K V) : Values N K V :=
  ⟨fun a => (v (some a)).map fun _ => f (some a), calls.active.map Prod.fst, calls.made⟩

omit [DecidableEq K] in
theorem viewOf_set (f : Place N → Option (Closure K V)) (v : Place N → Option (Option K)) (calls : Calls N K V) (a : N)
    (x : Option (Closure K V)) (y : Option (Option K)) :
    viewOf (update f (some a) x) (update v (some a) y) calls = (viewOf f v calls).set a (y.map fun _ => x) := by
  rw [viewOf, Values.set]
  congr 1
  funext b
  by_cases hb : b = a
  · subst hb
    rw [update_self, update_self, update_self]
  · have hne : (some b : Place N) ≠ some a := fun h => hb (Option.some.inj h)
    rw [update_of_ne hne, update_of_ne hne, update_of_ne hb]
    rfl

omit [DecidableEq K] in
theorem viewOf_temp (f : Place N → Option (Closure K V)) (v : Place N → Option (Option K)) (calls : Calls N K V)
    (x : Option (Closure K V)) (y : Option (Option K)) :
    viewOf (update f none x) (update v none y) calls = viewOf f v calls := by
  rw [viewOf, viewOf]
  congr 1

/-- Between two operations: the memory is in order, every vtable fits, and the temporary is gone. -/
structure Good (m : Memory N K V) : Prop where
  is : Is m m.held m.vtables m.calls
  typed : Typed m.held m.vtables
  temp : m.vtables none = none

/-- The closures that run are where they were called. -/
def Stays (m : Memory N K V) : Prop := ∀ e ∈ m.calls.active, m.objects.holds (some e.1) = some e.2

omit [DecidableEq N] [DecidableEq K] in
theorem Is.good (h : Is m f v calls) (ht : Typed f v) (htemp : v none = none) {s : Values N K V}
    (hview : viewOf f v calls = s) : Good m ∧ m.view = s := by
  obtain ⟨hsound, hcount, hfine, rfl, rfl, rfl⟩ := h
  exact ⟨⟨⟨hsound, hcount, hfine, rfl, rfl, rfl⟩, ht, htemp⟩, hview⟩

theorem Is.assigned (h : Is m f v calls) (ht : Typed f v) (a : N) :
    Good (m.assign (some a)) ∧ (m.assign (some a)).view = (viewOf f v calls).set a (some (f none)) := by
  have htyped : Typed (update f (some a) (f none)) (update v (some a) (some (m.vtable none))) :=
    ht.update (y := some _) (h.kind_eq ht none) _
  refine (h.assign ht (Option.some_ne_none a)).good (htyped.update rfl none) (update_self ..) ?_
  rw [viewOf_temp]
  exact viewOf_set ..

omit [DecidableEq K] in
theorem good_leave (h : Good m) (hstays : Stays m) : Good m.leave ∧ m.leave.view = m.view.step .leave := by
  cases hactive : m.calls.active with
  | nil =>
    have hview : m.view.step .leave = m.view := by
      change (⟨_, m.running.tail, _⟩ : Values N K V) = ⟨_, m.running, _⟩
      rw [running, hactive]
      rfl
    rw [leave, hactive, hview]
    exact ⟨h, rfl⟩
  | cons e outer =>
    have hthere : m.objects.holds (some e.1) = some e.2 := hstays e (by rw [hactive]; exact List.mem_cons_self)
    have hleave : m.leave = { m with calls := { m.calls with active := outer } } := by
      rw [leave, hactive]
      dsimp only
      rw [if_pos hthere]
      rfl
    have hdone : Is m.leave m.held m.vtables { m.calls with active := outer } := by
      rw [hleave]
      exact ⟨h.is.sound, h.is.count, h.is.fine, rfl, rfl, rfl⟩
    refine hdone.good h.typed h.temp ?_
    change (⟨_, outer.map Prod.fst, _⟩ : Values N K V) = ⟨_, m.running.tail, _⟩
    rw [running, hactive]
    rfl

theorem good_step (h : Good m) (hstays : Stays m) (op : Op N K V) (hop : op.living m.there = true) :
    Good (m.step op) ∧ (m.step op).view = m.view.step op := by
  have htemp : m.held none = none := h.typed.empty h.temp
  have hempty {a : N} (ha : (!m.there a) = true) : m.held (some a) = none := by
    refine h.typed.empty (Option.not_isSome_iff_eq_none.mp fun hsome => ?_)
    rw [there, hsome] at ha
    cases ha
  have hvalue {a : N} (ha : m.there a = true) : m.view.value a = some (m.held (some a)) := by
    obtain ⟨vt, hvt⟩ := Option.isSome_iff_exists.mp ha
    change (m.vtables (some a)).map _ = _
    rw [hvt]
    rfl
  have hthrows {a : N} (ha : m.there a = true) : (m.vtable (some a)).isSome = (m.view.value a).join.isSome := by
    rw [hvalue ha, ← h.is.kind_eq h.typed, Option.isSome_map]
    rfl
  have hkind (p : Place N) : (m.held p).map Closure.kind = (some (m.vtable p)).join := h.is.kind_eq h.typed p
  cases op with
  | construct a =>
    have hdone := h.is.setVtable (some a) (some none)
    have hsame : update m.held (some a) none = m.held := update_eq_self_iff.mpr (hempty hop).symm
    rw [← hsame] at hdone
    exact hdone.good (h.typed.update rfl _) h.temp (viewOf_set ..)
  | constructFrom a c =>
    exact (h.is.constructFrom (hempty hop) c).good (h.typed.update rfl _) h.temp (viewOf_set ..)
  | copyConstruct a b throws =>
    obtain ⟨ha, hb⟩ := Bool.and_eq_true_iff.mp hop
    rw [step, Values.step, hthrows hb]
    split
    · exact ⟨h, rfl⟩
    · refine (h.is.copyConstruct h.typed (hempty ha)).good (h.typed.update (hkind _) _) h.temp ?_
      rw [hvalue hb]
      exact viewOf_set ..
  | moveConstruct a b =>
    obtain ⟨ha, hb⟩ := Bool.and_eq_true_iff.mp hop
    have hne : (some a : Place N) ≠ some b := by
      rintro heq
      cases heq
      rw [hb] at ha
      cases ha
    refine (h.is.moveConstruct h.typed (hempty ha) hne).good ((h.typed.update rfl _).update (hkind _) _) h.temp ?_
    rw [viewOf_set, viewOf_set, Values.step, hvalue hb]
    rfl
  | assignNull a => exact (h.is.assignNull h.typed (some a)).good (h.typed.update rfl _) h.temp (viewOf_set ..)
  | assignFrom a c =>
    have hdone := (h.is.constructFrom htemp c).assigned (h.typed.update rfl none) a
    rw [viewOf_temp, update_self] at hdone
    exact hdone
  | assignCopy a b throws =>
    obtain ⟨-, hb⟩ := Bool.and_eq_true_iff.mp hop
    rw [step, Values.step, hthrows hb]
    split
    · exact ⟨h, rfl⟩
    · have hdone := (h.is.copyConstruct h.typed htemp).assigned (h.typed.update (hkind (some b)) none) a
      rw [viewOf_temp, update_self] at hdone
      rw [hvalue hb]
      exact hdone
  | assignMove a b =>
    obtain ⟨-, hb⟩ := Bool.and_eq_true_iff.mp hop
    have htyped := (h.typed.update (x := none) (y := some none) rfl (some b)).update (hkind (some b)) none
    have hdone := (h.is.moveConstruct h.typed htemp (Option.some_ne_none b).symm).assigned htyped a
    rw [viewOf_temp, viewOf_set, update_self] at hdone
    rw [Values.step, hvalue hb]
    exact hdone
  | swap a b =>
    obtain ⟨ha, hb⟩ := Bool.and_eq_true_iff.mp hop
    rw [step, Values.step, hvalue ha, hvalue hb]
    by_cases hab : a = b
    · subst hab
      rw [swap, if_pos rfl, Values.set, Values.set, update_idem, update_eq_self_iff.mpr (hvalue ha).symm]
      exact ⟨h, rfl⟩
    · have hne : (some a : Place N) ≠ some b := fun heq => hab (Option.some.inj heq)
      have htyped := (h.typed.update (hkind (some a)) (some b)).update (hkind (some b)) (some a)
      refine (h.is.swap h.typed htemp (Option.some_ne_none a) (Option.some_ne_none b) hne).good htyped h.temp ?_
      rw [viewOf_set, viewOf_set]
      rfl
  | destruct a => exact (h.is.destruct h.typed (some a)).good (h.typed.update rfl _) h.temp (viewOf_set ..)
  | enter a =>
    refine (h.is.invokePtr (hkind (some a))).good h.typed h.temp ?_
    rw [Values.step, hvalue hop]
    cases hholds : m.objects.holds (some a) with
    | none =>
      rw [h.is.empty_iff.mp hholds]
      rfl
    | some n =>
      have hfull : m.held (some a) ≠ none := by
        intro hnone
        rw [h.is.empty_iff.mpr hnone] at hholds
        cases hholds
      obtain ⟨c, hc⟩ := Option.ne_none_iff_exists'.mp hfull
      rw [hc]
      rfl
  | leave => exact good_leave h hstays

omit [DecidableEq N] [DecidableEq K] in
theorem stays_leave (hstays : Stays m) : Stays m.leave := by
  unfold leave
  split
  · exact hstays
  · next hactive =>
    intro e he
    exact hstays e (by rw [hactive]; exact List.mem_cons_of_mem _ he)

omit [DecidableEq N] in
theorem stays_invokePtr (hstays : Stays m) (vt : Option K) (a : N) : Stays (m.invokePtr vt a) := by
  unfold invokePtr
  split
  · exact hstays
  · unfold entry
    dsimp only
    split
    · split
      · intro e he
        rcases List.mem_append.mp he with hnew | hold
        · obtain ⟨n, hn, rfl⟩ := List.mem_map.mp hnew
          exact Option.mem_toList.mp hn
        · exact hstays e hold
      · exact hstays
    · exact hstays

theorem stays_step (hstays : Stays m) (op : Op N K V) (hwrites : ∀ a ∈ op.writes, a ∉ m.running) : Stays (m.step op) := by
  by_cases hleave : op = .leave
  · subst hleave
    exact stays_leave hstays
  by_cases henter : ∃ a, op = .enter a
  · obtain ⟨a, rfl⟩ := henter
    exact stays_invokePtr hstays _ a
  obtain ⟨hcalls, hholds⟩ := m.keeps_step op (fun a ha => henter ⟨a, ha⟩) hleave
  intro e he
  rw [hcalls] at he
  rw [hholds _ ?_]
  · exact hstays e he
  · intro hmem
    rcases List.mem_cons.mp hmem with hnone | hmem
    · cases hnone
    · obtain ⟨a, ha, heq⟩ := List.mem_map.mp hmem
      cases heq
      exact hwrites e.1 ha (List.mem_map_of_mem he)

theorem good_run {ops : List (Op N K V)} {m m' : Memory N K V} (h : Good m) (hstays : Stays m)
    (hrun : m.run ops = some m') : Good m' ∧ m.view.run ops = some m'.view := by
  induction ops generalizing m with
  | nil =>
    cases hrun
    exact ⟨h, rfl⟩
  | cons op ops ih =>
    rw [run] at hrun
    split at hrun
    · next hop =>
      obtain ⟨hliving, hwrites⟩ := Bool.and_eq_true_iff.mp hop
      obtain ⟨hgood, hview⟩ := good_step h hstays op hliving
      have hstays' : Stays (m.step op) :=
        stays_step hstays op fun a ha => of_decide_eq_true (List.all_eq_true.mp hwrites a ha)
      have hthere : m.view.there = m.there := by
        funext a
        exact Option.isSome_map
      obtain ⟨hdone, hvalues⟩ := ih hgood hstays' hrun
      rw [hview] at hvalues
      refine ⟨hdone, ?_⟩
      rw [Values.run, hthere]
      exact (if_pos hop).trans hvalues
    · cases hrun

omit [DecidableEq N] [DecidableEq K] in
theorem good_start : Good ({} : Memory N K V) :=
  ⟨⟨sound_start, rfl, rfl, rfl, rfl, rfl⟩, fun _ => rfl, rfl⟩

end Memory

/-- **An `inplace_function` is a variable of its users.** Whatever they do with any number of functions, from inside calls
too, if only no closure writes the function that it runs in: no vtable is used on a storage that holds no closure of its
type, no closure is constructed over another, and none is gone before its call ends. The functions hold and call the
closures that variables would; every closure ever constructed has been destroyed once or is in the storage of one function,
none is in a temporary, and with the last function the last closure is destroyed. -/
theorem functions_hold_values {ops : List (Op N K V)} {m : Memory N K V} (h : Memory.run {} ops = some m) :
    m.faults = 0 ∧ Values.run {} ops = some m.view ∧ Sound m.objects ∧ m.objects.holds none = none ∧
      ((∀ a, m.there a = false) → ∀ n < m.closures.length, m.objects.freed.count n = 1) := by
  obtain ⟨hgood, hview⟩ := Memory.good_run Memory.good_start nofun h
  have hempty {p : Option N} (hp : m.vtables p = none) : m.objects.holds p = none :=
    hgood.is.empty_iff.mpr (hgood.typed.empty hp)
  refine ⟨hgood.is.fine, hview, hgood.is.sound, hempty hgood.temp, fun hnone n hn => ?_⟩
  refine hgood.is.sound.all_freed (fun p => hempty ?_) (hgood.is.count ▸ hn)
  cases p with
  | none => exact hgood.temp
  | some a => exact Option.not_isSome_iff_eq_none.mp (Bool.eq_false_iff.mp (hnone a))

/-- A callback is set, copied, moved onto itself and swapped; while it runs it clears the other; then both functions go. -/
def careful : List (Op Bool String Nat) :=
  [.construct true, .assignFrom true ⟨"on_state", 1⟩, .copyConstruct false true false, .assignMove true true,
    .assignFrom false ⟨"on_message", 2⟩, .swap true false, .enter true, .assignNull false, .enter false, .leave,
    .destruct true, .destruct false]

theorem careful_holds_values : ∃ m, Memory.run {} careful = some m ∧ m.calls.made = [none, some ⟨"on_message", 2⟩] ∧
    m.faults = 0 ∧ Values.run {} careful = some m.view ∧ Sound m.objects ∧ m.objects.holds none = none ∧
    ((∀ a, m.there a = false) → ∀ n < m.closures.length, m.objects.freed.count n = 1) := by
  refine ⟨_, rfl, by decide, functions_hold_values rfl⟩

/-- A callback that replaces itself: the closure that runs is destroyed. -/
theorem replaced_while_running :
    let ops : List (Op Bool String Nat) :=
      [.constructFrom true ⟨"on_state", 1⟩, .enter true, .assignFrom true ⟨"on_state", 2⟩, .leave]
    (ops.foldl Memory.step {}).faults = 1 := by
  decide

end Lepton.Inplace
