import Lepton.EventLoop

/-! What the reactor calls. In every run `on_ready` is called on registered pollables only. A step in busy-poll
mode gives every pollable that is registered when the drain begins one turn, and a step in poller mode every event
of its batch; a turn is a call unless the pollable has been removed since. The sweep of busy-poll mode keeps the
registration table equal to the list of registered pollables; in poller mode there is no sweep. -/

namespace Lepton.Reactor

/-- The entry without a pollable that has been removed. -/
def kept (gone : List Ev) (entry : Option Pollable) : Option Pollable := entry.filter fun p => .removed p ∉ gone

theorem kept_eq_some {gone : List Ev} {entry : Option Pollable} {p : Pollable} :
    kept gone entry = some p ↔ entry = some p ∧ .removed p ∉ gone := by
  rw [kept, Option.filter_eq_some_iff, decide_eq_true_iff]

theorem kept_nil (entry : Option Pollable) : kept [] entry = entry := by
  cases entry with
  | none => rfl
  | some p => exact kept_eq_some.mpr ⟨rfl, List.not_mem_nil⟩

theorem kept_gone {gone : List Ev} {p : Pollable} (h : .removed p ∈ gone) : kept gone (some p) = none := by
  refine Option.eq_none_iff_forall_ne_some.mpr fun q hq => ?_
  obtain ⟨hpq, hq⟩ := kept_eq_some.mp hq
  cases hpq
  exact hq h

theorem kept_cons_of_ne {gone : List Ev} {e : Ev} (h : ∀ p, e ≠ .removed p) (entry : Option Pollable) :
    kept (e :: gone) entry = kept gone entry := by
  refine Option.ext fun p => ?_
  rw [kept_eq_some, kept_eq_some, List.mem_cons, not_or]
  exact and_congr_right fun _ => ⟨And.right, fun hgone => ⟨(h p).symm, hgone⟩⟩

/-- A removal nulls the entry of the pollable and leaves the others. -/
theorem kept_removed (gone : List Ev) (p : Pollable) (entry : Option Pollable) :
    kept (.removed p :: gone) entry = if kept gone entry = some p then none else kept gone entry := by
  by_cases hentry : kept gone entry = some p
  · rw [if_pos hentry]
    refine Option.eq_none_iff_forall_ne_some.mpr fun q hq => ?_
    obtain ⟨hsome, hgone⟩ := kept_eq_some.mp hq
    obtain rfl : q = p := Option.some.inj (hsome.symm.trans (kept_eq_some.mp hentry).1)
    exact hgone List.mem_cons_self
  · rw [if_neg hentry]
    refine Option.ext fun q => ?_
    rw [kept_eq_some, kept_eq_some, List.mem_cons, not_or]
    refine and_congr_right fun hq => ⟨And.right, fun hgone => ⟨fun heq => ?_, hgone⟩⟩
    cases heq
    exact hentry (kept_eq_some.mpr ⟨hq, hgone⟩)

namespace EventLoop

variable {s s' h : EventLoop} {p : Pollable}

/-! ### The registration table -/

theorem mem_reduceOption {entries : List (Option Pollable)} : p ∈ entries.filterMap id ↔ some p ∈ entries := by
  rw [List.mem_filterMap]
  constructor
  · rintro ⟨entry, hmem, rfl⟩
    exact hmem
  · exact fun hmem => ⟨some p, hmem, rfl⟩

theorem clear_of_not_mem {entries : List (Option Pollable)} (hp : some p ∉ entries) : clear p entries = entries := by
  induction entries with
  | nil => rfl
  | cons entry rest ih =>
    have hentry : entry ≠ some p := fun heq => hp (heq ▸ List.mem_cons_self)
    rw [clear, if_neg hentry, ih fun hmem => hp (List.mem_cons_of_mem _ hmem)]

/-- The registered pollables of a table whose first entry for `p` is nulled. -/
theorem filterMap_clear (p : Pollable) (entries : List (Option Pollable)) :
    (clear p entries).filterMap id = (entries.filterMap id).erase p := by
  induction entries with
  | nil => rfl
  | cons entry rest ih =>
    rw [clear]
    cases entry with
    | none => exact ih
    | some q =>
      by_cases hq : q = p
      · subst hq
        rw [if_pos rfl]
        exact (List.erase_cons_head q (rest.filterMap id)).symm
      · rw [if_neg fun heq => hq (Option.some.inj heq)]
        change q :: (clear p rest).filterMap id = (q :: rest.filterMap id).erase p
        rw [ih, List.erase_cons_tail (by simpa using hq)]

theorem clear_append (p : Pollable) (front extra : List (Option Pollable)) :
    clear p (front ++ extra) = if some p ∈ front then clear p front ++ extra else front ++ clear p extra := by
  induction front with
  | nil => rfl
  | cons entry rest ih =>
    rw [List.cons_append, clear, clear]
    by_cases hentry : entry = some p
    · rw [if_pos hentry, if_pos hentry, if_pos (hentry ▸ List.mem_cons_self)]
      rfl
    · rw [if_neg hentry, if_neg hentry, ih]
      by_cases hmem : some p ∈ rest
      · rw [if_pos hmem, if_pos (List.mem_cons_of_mem _ hmem)]
        rfl
      · rw [if_neg hmem, if_neg fun h => (List.mem_cons.mp h).elim (fun h => hentry h.symm) hmem]
        rfl

/-- In a table that lists every pollable at most once, nulling the first entry nulls every entry. -/
theorem clear_kept {entries : List (Option Pollable)} (hnodup : (entries.filterMap id).Nodup) (gone : List Ev)
    (p : Pollable) : clear p (entries.map (kept gone)) = entries.map (kept (.removed p :: gone)) := by
  induction entries with
  | nil => rfl
  | cons entry rest ih =>
    have hrest : (rest.filterMap id).Nodup := by
      cases entry with
      | none => exact hnodup
      | some q => exact (List.nodup_cons.mp hnodup).2
    rw [List.map_cons, List.map_cons, clear, kept_removed]
    by_cases hentry : kept gone entry = some p
    · rw [if_pos hentry, if_pos hentry]
      obtain ⟨rfl, -⟩ := kept_eq_some.mp hentry
      have hother : some p ∉ rest.map (kept gone) := fun hmem => by
        obtain ⟨entry, hmem, heq⟩ := List.mem_map.mp hmem
        obtain ⟨rfl, -⟩ := kept_eq_some.mp heq
        exact (List.nodup_cons.mp hnodup).1 (mem_reduceOption.mpr hmem)
      rw [← ih hrest, clear_of_not_mem hother]
    · rw [if_neg hentry, if_neg hentry, ih hrest]

/-! ### Steps -/

/-- The batch holds registered pollables only, from the event `k` on. -/
def Current (k : Int) (s : EventLoop) : Prop :=
  ∀ (j : Nat) (e : ReadyEvent), k ≤ j → j < s.currentEventCount → s.events[j]? = some e →
    ∀ p, e.token = some p → p ∈ registry s.log

/-- The table lists the registered pollables, and the poller knows no others. -/
structure Listed (s : EventLoop) : Prop where
  table : s.sessions.filterMap id = registry s.log
  nodup : (registry s.log).Nodup
  silent : s.cfg.busyPoll = true → s.poller = fun _ => none
  polled : ∀ fd p, s.poller fd = some p → s.fds p = some fd ∧ p ∈ registry s.log

/-- The events from `k` on are those that a removal scrubs. -/
def Scrubs (k : Int) (s : EventLoop) : Prop := s.currentEventCount ≤ k ∨ 0 ≤ s.currentEventIdx ∧ s.currentEventIdx < k

/-- `on_ready` has been called on registered pollables only. -/
def CallsRegistered : List Ev → Prop
  | [] => True
  | .ready p _ :: older => p ∈ registry older ∧ CallsRegistered older
  | .added _ :: older | .removed _ :: older => CallsRegistered older

theorem CallsRegistered.mem {log newer older : List Ev} (hlog : CallsRegistered log) {flags : Nat}
    (h : log = newer ++ .ready p flags :: older) : p ∈ registry older := by
  subst h
  induction newer with
  | nil => exact hlog.1
  | cons e newer ih =>
    cases e with
    | ready q flags => exact ih hlog.2
    | added q => exact ih hlog
    | removed q => exact ih hlog

/-- What user code changes: the table and the poller as far as the calls go, and nothing of the batch but the
tokens of removed pollables. -/
structure Acts (s s' : EventLoop) : Prop where
  cfg : s'.cfg = s.cfg
  idx : s'.currentEventIdx = s.currentEventIdx
  count : s'.currentEventCount = s.currentEventCount
  log : s.log <:+ s'.log
  quiet : ∀ p flags, .ready p flags ∉ since s.log s'.log
  listed : Listed s → Listed s'
  current : ∀ k, Scrubs k s → Current k s → Current k s'
  called : CallsRegistered s.log → CallsRegistered s'.log

theorem Acts.refl (s : EventLoop) : Acts s s where
  cfg := rfl
  idx := rfl
  count := rfl
  log := List.suffix_rfl
  quiet := fun p flags hmem => by
    rw [since_self] at hmem
    cases hmem
  listed := id
  current := fun _ _ => id
  called := id

theorem Acts.trans {s s' s'' : EventLoop} (hs : Acts s s') (hs' : Acts s' s'') : Acts s s'' where
  cfg := hs'.cfg.trans hs.cfg
  idx := hs'.idx.trans hs.idx
  count := hs'.count.trans hs.count
  log := hs.log.trans hs'.log
  quiet := fun p flags hmem => by
    rw [since_trans hs.log hs'.log] at hmem
    exact (List.mem_append.mp hmem).elim (hs'.quiet p flags) (hs.quiet p flags)
  listed := fun h => hs'.listed (hs.listed h)
  current := fun k hk h => by
    refine hs'.current k ?_ (hs.current k hk h)
    rw [Scrubs, hs.idx, hs.count]
    exact hk
  called := fun h => hs'.called (hs.called h)

/-- A step that makes no call: only entries of the poller may go. -/
theorem Acts.silent (hcfg : s'.cfg = s.cfg) (hidx : s'.currentEventIdx = s.currentEventIdx)
    (hcount : s'.currentEventCount = s.currentEventCount) (hlog : s'.log = s.log) (hsessions : s'.sessions = s.sessions)
    (hevents : s'.events = s.events) (hsilent : s.poller = (fun _ => none) → s'.poller = fun _ => none)
    (hpoller : Listed s → ∀ fd p, s'.poller fd = some p → s'.fds p = s.fds p ∧ s.poller fd = some p) :
    Acts s s' where
  cfg := hcfg
  idx := hidx
  count := hcount
  log := hlog ▸ List.suffix_rfl
  quiet := fun p flags hmem => by
    rw [hlog, since_self] at hmem
    cases hmem
  listed := fun hl => by
    refine ⟨by rw [hsessions, hlog, hl.table], by rw [hlog]; exact hl.nodup, fun hbusy => ?_, fun fd p hfd => ?_⟩
    · exact hsilent (hl.silent (hcfg ▸ hbusy))
    · obtain ⟨hfds, hold⟩ := hpoller hl fd p hfd
      rw [hlog, hfds]
      exact hl.polled fd p hold
  current := fun k _ hc j e hk hj he => by
    rw [hlog]
    exact hc j e hk (hcount ▸ hj) (hevents ▸ he)
  called := fun hc => hlog ▸ hc

theorem pollerAdd_cases (s : EventLoop) (p : Pollable) :
    (∃ env, s.pollerAdd p = (false, { s with env := env })) ∨
      ∃ env poller, s.pollerAdd p = (true, { s with env := env, poller := poller }) ∧
        ∀ fd q, poller fd = some q → s.poller fd = some q ∨ q = p ∧ s.fds p = some fd := by
  unfold pollerAdd
  split
  · exact Or.inl ⟨s.env, rfl⟩
  · next fd hfd =>
    split
    · exact Or.inl ⟨s.env, rfl⟩
    · split
      · exact Or.inl ⟨_, rfl⟩
      · refine Or.inr ⟨_, _, rfl, fun fd' q hq => ?_⟩
        by_cases hfd' : fd' = fd
        · subst hfd'
          rw [Function.update_self] at hq
          exact Or.inr ⟨(Option.some.inj hq).symm, hfd⟩
        · rw [Function.update_of_ne hfd'] at hq
          exact Or.inl hq

/-- `add` fails, or lists the pollable. -/
theorem add_cases (s : EventLoop) (p : Pollable) :
    (∃ env, (s.add p).2 = { s with env := env }) ∨
      ∃ env poller, (s.add p).2 = { s.push p with env := env, poller := poller } ∧
        (s.cfg.busyPoll = true → poller = s.poller) ∧
        ∀ fd q, poller fd = some q → s.poller fd = some q ∨ q = p ∧ s.fds p = some fd := by
  unfold add
  split
  · exact Or.inr ⟨s.env, s.poller, rfl, fun _ => rfl, fun _ _ => Or.inl⟩
  · next hbusy =>
    obtain ⟨env, h⟩ | ⟨env, poller, h, hpoller⟩ := s.pollerAdd_cases p
    · rw [h]
      exact Or.inl ⟨env, rfl⟩
    · rw [h]
      exact Or.inr ⟨env, poller, rfl, fun h => absurd h hbusy, hpoller⟩

theorem acts_add (hp : some p ∉ s.sessions) : Acts s (s.add p).2 := by
  obtain ⟨env, h⟩ | ⟨env, poller, h, hbusy, hpoller⟩ := s.add_cases p
  · rw [h]
    exact Acts.silent rfl rfl rfl rfl rfl rfl id fun _ _ _ hfd => ⟨rfl, hfd⟩
  · rw [h]
    refine ⟨rfl, rfl, rfl, List.suffix_cons _ _, fun q flags hmem => ?_, fun hl => ?_, fun k _ hc j e hk hj he q hq => ?_, id⟩
    · change _ ∈ since s.log (.added p :: s.log) at hmem
      rw [since_cons List.suffix_rfl, since_self] at hmem
      exact absurd (List.mem_singleton.mp hmem) nofun
    · have hnew : p ∉ registry s.log := by
        rw [← hl.table, mem_reduceOption]
        exact hp
      refine ⟨?_, ?_, fun h => ?_, fun fd q hq => ?_⟩
      · change (s.sessions ++ [some p]).filterMap id = registry s.log ++ [p]
        rw [List.filterMap_append, hl.table]
        rfl
      · exact List.nodup_append.mpr ⟨hl.nodup, List.nodup_singleton p, fun q hq q' hq' heq =>
          hnew (List.mem_singleton.mp hq' ▸ heq ▸ hq)⟩
      · exact (hbusy h).trans (hl.silent h)
      · rcases hpoller fd q hq with hold | ⟨rfl, hfd⟩
        · obtain ⟨hfds, hmem⟩ := hl.polled fd q hold
          exact ⟨hfds, List.mem_append_left _ hmem⟩
        · exact ⟨hfd, List.mem_append_right _ (List.mem_singleton_self q)⟩
    · exact List.mem_append_left _ (hc j e hk hj he q hq)

/-- What is left of the poller's entries when those of `p` are gone. -/
theorem pollerDel_eq (s : EventLoop) (p : Pollable) :
    ∃ poller, s.pollerDel p = { s with poller := poller } ∧
      ∀ fd q, poller fd = some q → s.poller fd = some q ∧ s.fds p ≠ some fd := by
  unfold pollerDel
  split
  · next hnone =>
    refine ⟨s.poller, rfl, fun fd q hq => ⟨hq, ?_⟩⟩
    rw [hnone]
    exact nofun
  · next fd' hfd =>
    refine ⟨_, rfl, fun fd q hq => ?_⟩
    by_cases heq : fd = fd'
    · subst heq
      rw [Function.update_self] at hq
      cases hq
    · rw [Function.update_of_ne heq] at hq
      refine ⟨hq, fun h => heq ?_⟩
      rw [hfd] at h
      exact (Option.some.inj h).symm

theorem acts_reopen (s : EventLoop) (p : Pollable) (fd : Option Nat) :
    Acts s { s.pollerDel p with fds := Function.update s.fds p fd } := by
  obtain ⟨poller, h, hpoller⟩ := s.pollerDel_eq p
  rw [h]
  refine Acts.silent rfl rfl rfl rfl rfl rfl (fun hnone => ?_) fun hl fd' q hq => ?_
  · funext fd'
    refine Option.eq_none_iff_forall_ne_some.mpr fun q hq => ?_
    have hold := (hpoller fd' q hq).1
    rw [hnone] at hold
    cases hold
  · obtain ⟨hold, hother⟩ := hpoller fd' q hq
    refine ⟨Function.update_of_ne ?_ _ _, hold⟩
    rintro rfl
    exact hother (hl.polled fd' q hold).1

/-- A removal: what is left of the poller, of the batch and of the table. -/
theorem remove_eq (s : EventLoop) (p : Pollable) :
    ∃ poller events, (s.remove p).2 = { s.note (.removed p) with
        sessions := clear p s.sessions, poller := poller, events := events } ∧
      (∀ fd q, poller fd = some q → s.poller fd = some q ∧ (s.cfg.busyPoll = false → s.fds p ≠ some fd)) ∧
      ∀ k, Scrubs k s → ∀ (j : Nat), k ≤ j → j < s.currentEventCount →
        events[j]? = s.events[j]?.map fun e => if e.token = some p then { e with token := none } else e := by
  have hdel : ∃ poller, (if s.cfg.busyPoll then s else s.pollerDel p) = { s with poller := poller } ∧
      ∀ fd q, poller fd = some q → s.poller fd = some q ∧ (s.cfg.busyPoll = false → s.fds p ≠ some fd) := by
    split
    · next hbusy => exact ⟨s.poller, rfl, fun fd q hq => ⟨hq, fun h => absurd (hbusy.symm.trans h) nofun⟩⟩
    · obtain ⟨poller, h, hpoller⟩ := s.pollerDel_eq p
      exact ⟨poller, h, fun fd q hq => ⟨(hpoller fd q hq).1, fun _ => (hpoller fd q hq).2⟩⟩
  obtain ⟨poller, hs, hpoller⟩ := hdel
  unfold remove
  dsimp only
  rw [hs]
  unfold scrub
  dsimp only
  split
  · next hidx =>
    refine ⟨poller, _, rfl, hpoller, fun k hk j hkj hj => ?_⟩
    dsimp only [note]
    rw [List.getElem?_mapIdx]
    have hlt : s.currentEventIdx < j := by
      rcases hk with hk | ⟨-, hk⟩
      · omega
      · omega
    cases s.events[j]? with
    | none => rfl
    | some e =>
      change some (if s.currentEventIdx < j ∧ j < s.currentEventCount ∧ e.token = some p then _ else e) = _
      congr 1
      by_cases he : e.token = some p
      · rw [if_pos ⟨hlt, hj, he⟩]
        exact (if_pos he).symm
      · rw [if_neg fun h => he h.2.2]
        exact (if_neg he).symm
  · next hidx =>
    refine ⟨poller, s.events, rfl, hpoller, fun k hk j hkj hj => ?_⟩
    rcases hk with hk | ⟨hk, -⟩
    · omega
    · exact absurd hk hidx

theorem acts_remove (s : EventLoop) (p : Pollable) : Acts s (s.remove p).2 := by
  obtain ⟨poller, events, h, hpoller, hevents⟩ := s.remove_eq p
  rw [h]
  refine ⟨rfl, rfl, rfl, List.suffix_cons _ _, fun q flags hmem => ?_, fun hl => ?_, fun k hk hc j e hkj hj he q hq => ?_, id⟩
  · change _ ∈ since s.log (.removed p :: s.log) at hmem
    rw [since_cons List.suffix_rfl, since_self] at hmem
    exact absurd (List.mem_singleton.mp hmem) nofun
  · refine ⟨?_, hl.nodup.erase p, fun hbusy => ?_, fun fd q hq => ?_⟩
    · change (clear p s.sessions).filterMap id = (registry s.log).erase p
      rw [filterMap_clear, hl.table]
    · funext fd
      refine Option.eq_none_iff_forall_ne_some.mpr fun q hq => ?_
      have hold := (hpoller fd q hq).1
      rw [hl.silent hbusy] at hold
      cases hold
    · obtain ⟨hold, hother⟩ := hpoller fd q hq
      obtain ⟨hfds, hmem⟩ := hl.polled fd q hold
      have hmode : s.cfg.busyPoll = false := by
        cases hbusy : s.cfg.busyPoll with
        | false => rfl
        | true =>
          rw [hl.silent hbusy] at hold
          cases hold
      refine ⟨hfds, (List.mem_erase_of_ne ?_).mpr hmem⟩
      rintro rfl
      exact hother hmode hfds
  · have hscrub := hevents k hk j hkj hj
    rw [he] at hscrub
    obtain ⟨e', he', heq⟩ := Option.map_eq_some_iff.mp hscrub.symm
    by_cases hp : e'.token = some p
    · rw [if_pos hp] at heq
      rw [← heq] at hq
      cases hq
    · rw [if_neg hp] at heq
      subst heq
      refine (List.mem_erase_of_ne ?_).mpr (hc j e' hkj hj he' q hq)
      rintro rfl
      exact hp hq

theorem acts_act (s : EventLoop) (a : Act) : Acts s (s.act a) := by
  cases a with
  | add p =>
    rw [act]
    split
    · exact Acts.refl s
    · next hp => exact acts_add hp
  | remove p => exact s.acts_remove p
  | reopen p fd => exact s.acts_reopen p fd

theorem acts_env (s : EventLoop) (env : Env) : Acts s { s with env := env } :=
  Acts.silent rfl rfl rfl rfl rfl rfl id fun _ _ _ hfd => ⟨rfl, hfd⟩

theorem acts_script (s : EventLoop) : Acts s s.script := by
  have hfold (acts : List Act) (s : EventLoop) : Acts s (acts.foldl act s) := by
    induction acts generalizing s with
    | nil => exact Acts.refl s
    | cons a rest ih => exact (s.acts_act a).trans (ih _)
  unfold script
  split
  · exact Acts.refl s
  · exact (s.acts_env _).trans (hfold _ _)

/-! ### Calls on registered pollables -/

/-- What every step keeps. -/
structure Orderly (s : EventLoop) : Prop extends Listed s where
  called : CallsRegistered s.log

theorem Orderly.acts (hs : Orderly s) (hacts : Acts s s') : Orderly s' :=
  ⟨hacts.listed hs.toListed, hacts.called hs.called⟩

theorem orderly_onReady (hs : Orderly s) (hp : p ∈ registry s.log) (flags : Nat) : Orderly (s.onReady p flags) := by
  have hnote : Orderly (s.note (.ready p flags)) :=
    ⟨⟨hs.table, hs.nodup, hs.silent, hs.polled⟩, ⟨hp, hs.called⟩⟩
  exact hnote.acts (acts_script _)

theorem onReady_log (s : EventLoop) (p : Pollable) (flags : Nat) : s.log <:+ (s.onReady p flags).log :=
  (List.suffix_cons _ s.log).trans (acts_script (s.note (.ready p flags))).log

theorem onReady_cfg (s : EventLoop) (p : Pollable) (flags : Nat) : (s.onReady p flags).cfg = s.cfg :=
  (acts_script (s.note (.ready p flags))).cfg

theorem orderly_drain (n i : Nat) (hs : Orderly s) : Orderly (drain n i s) := by
  induction n generalizing i s with
  | zero => exact hs
  | succ n ih =>
    rw [drain]
    refine ih (i + 1) ?_
    split
    · next p hp =>
      refine orderly_onReady hs ?_ 0
      rw [← hs.table, mem_reduceOption]
      exact List.mem_of_getElem? hp
    · exact hs

/-- The loop over the batch: what is left of the batch is registered at every turn. -/
theorem orderly_dispatch (n : Nat) (hs : Orderly s) (hidx : 0 ≤ s.currentEventIdx)
    (hn : s.currentEventIdx + n ≤ s.currentEventCount) (hcur : Current s.currentEventIdx s) : Orderly (dispatch n s) := by
  induction n generalizing s with
  | zero => exact hs
  | succ n ih =>
    rw [dispatch]
    obtain ⟨i, hi⟩ : ∃ i : Nat, s.currentEventIdx = i := Int.eq_ofNat_of_zero_le hidx
    have hrest : Current (s.currentEventIdx + 1) s := fun j e hj => hcur j e (by omega)
    split
    · next p flags he =>
      have hi' : s.currentEventIdx.toNat = i := by omega
      rw [hi'] at he
      have hp : p ∈ registry s.log := hcur i _ (by omega) (by omega) he p rfl
      have hready := orderly_onReady hs hp flags
      have hacts := acts_script (s.note (.ready p flags))
      have hcurrent : Current (s.currentEventIdx + 1) (s.onReady p flags) :=
        hacts.current _ (Or.inr ⟨hidx, Int.lt_succ _⟩) fun j e hj hj' he q hq => hrest j e hj hj' he q hq
      have hidx' : (s.onReady p flags).currentEventIdx = s.currentEventIdx := hacts.idx
      have hcount' : (s.onReady p flags).currentEventCount = s.currentEventCount := hacts.count
      generalize s.onReady p flags = s₁ at hready hcurrent hidx' hcount'
      refine ih ⟨⟨hready.table, hready.nodup, hready.silent, hready.polled⟩, hready.called⟩ ?_ ?_ ?_
      · dsimp only
        omega
      · dsimp only
        omega
      · rw [← hidx'] at hcurrent
        exact hcurrent
    · refine ih ⟨⟨hs.table, hs.nodup, hs.silent, hs.polled⟩, hs.called⟩ ?_ ?_ hrest
      · dsimp only
        omega
      · dsimp only
        omega

/-- The batch of a wait holds registered pollables. -/
theorem wait_cases (s : EventLoop) :
    ∃ env events, s.wait.2 = { s with env := env, events := events } ∧ s.wait.1.toNat ≤ events.length ∧
      ∀ (j : Nat) (e : ReadyEvent), j < s.wait.1 → events[j]? = some e → ∃ fd p, s.poller fd = some p ∧ e.token = some p := by
  unfold wait
  split
  · exact ⟨s.env, s.events, rfl, Nat.zero_le _, fun j e hj => absurd hj (by simp)⟩
  · exact ⟨_, s.events, rfl, Nat.zero_le _, fun j e hj => absurd hj (by omega)⟩
  · next fds rest _ =>
    refine ⟨_, _, rfl, ?_, fun j e hj he => ?_⟩
    · rw [Int.toNat_natCast, List.length_append]
      exact Nat.le_add_right _ _
    rw [List.getElem?_append_left (by exact Int.ofNat_lt.mp hj)] at he
    obtain ⟨⟨fd, flags⟩, -, hfd⟩ := List.mem_filterMap.mp (List.mem_of_mem_take (List.mem_of_getElem? he))
    obtain ⟨p, hp, rfl⟩ := Option.map_eq_some_iff.mp hfd
    exact ⟨fd, p, hp, rfl⟩

theorem poll_spec (s : EventLoop) :
    ∃ env events, s.poll = { s with env := env, events := events, currentEventIdx := 0, currentEventCount := s.wait.1 } ∧
      s.wait.1.toNat ≤ events.length ∧ (Listed s → Current 0 s.poll) := by
  obtain ⟨env, events, h, hlen, htokens⟩ := s.wait_cases
  have hpoll : s.poll = { s with env := env, events := events, currentEventIdx := 0, currentEventCount := s.wait.1 } := by
    unfold poll
    dsimp only
    rw [h]
  refine ⟨env, events, hpoll, hlen, fun hl j e _ hj he p hp => ?_⟩
  rw [hpoll] at hj he ⊢
  obtain ⟨fd, q, hfd, hq⟩ := htokens j e hj he
  obtain rfl : p = q := Option.some.inj (hp.symm.trans hq)
  exact (hl.polled fd p hfd).2

theorem orderly_turn (hs : Orderly s) : Orderly s.turn := by
  unfold turn
  split
  · have hdrain := orderly_drain s.sessions.length 0 hs
    generalize drain s.sessions.length 0 s = s₁ at hdrain
    refine ⟨⟨?_, hdrain.nodup, hdrain.silent, hdrain.polled⟩, hdrain.called⟩
    change (s₁.sessions.filter Option.isSome).filterMap id = registry s₁.log
    rw [← hdrain.table, List.filterMap_filter]
    congr 1
    funext entry
    cases entry with
    | none => rfl
    | some p => rfl
  · obtain ⟨env, events, hpoll, -, hcur⟩ := s.poll_spec
    have hbatch := hcur hs.toListed
    have hpolled : Orderly s.poll := by
      rw [hpoll]
      exact ⟨⟨hs.table, hs.nodup, hs.silent, hs.polled⟩, hs.called⟩
    have hidx : s.poll.currentEventIdx = 0 := by rw [hpoll]
    have hdone : Orderly (dispatch s.poll.currentEventCount.toNat s.poll) := by
      by_cases hpos : 0 ≤ s.poll.currentEventCount
      · exact orderly_dispatch _ hpolled (Int.le_of_eq hidx.symm) (by omega) (hidx ▸ hbatch)
      · have hnone : s.poll.currentEventCount.toNat = 0 := by omega
        rw [hnone]
        exact hpolled
    exact ⟨⟨hdone.table, hdone.nodup, hdone.silent, hdone.polled⟩, hdone.called⟩

theorem orderly_call (hs : Orderly s) (c : Call × Env) : Orderly (s.call c) := by
  have henv := hs.acts (s.acts_env c.2)
  unfold call
  split
  · exact henv.acts (acts_act _ _)
  · exact orderly_turn (henv.acts (acts_script _))

/-- **Every run is orderly.** -/
theorem orderly_run (cfg : EventLoopConfig) (fds : Pollable → Option Nat) (calls : List (Call × Env)) :
    Orderly (run (freshLoop cfg fds) calls) := by
  have hfold (calls : List (Call × Env)) {s : EventLoop} (hs : Orderly s) : Orderly (run s calls) := by
    induction calls generalizing s with
    | nil => exact hs
    | cons c rest ih => exact ih (orderly_call hs c)
  exact hfold calls ⟨⟨rfl, List.nodup_nil, fun _ => rfl, nofun⟩, trivial⟩

/-! ### Turns -/

/-- What a step is for: every listed pollable has one turn, in the order of the list, and is called at its turn
unless it has been removed since `start`; `next` is what the loop does between two turns. -/
def serve (start : EventLoop) (next : EventLoop → EventLoop) : List (Pollable × Nat) → EventLoop → EventLoop
  | [], s => s
  | (p, flags) :: rest, s =>
    serve start next rest (next (if .removed p ∈ since start.log s.log then s else s.onReady p flags))

/-- The table of `h`, without what has been removed since, and with what has been added. -/
structure Follows (h s : EventLoop) : Prop where
  log : h.log <:+ s.log
  table : ∃ extra, s.sessions = h.sessions.map (kept (since h.log s.log)) ++ extra

theorem Follows.refl (h : EventLoop) : Follows h h := by
  refine ⟨List.suffix_rfl, [], ?_⟩
  rw [since_self, List.append_nil]
  exact (List.map_congr_left fun entry _ => kept_nil entry).trans (List.map_id _) |>.symm

theorem Follows.same (hs : Follows h s) (hlog : s'.log = s.log) (hsessions : s'.sessions = s.sessions) : Follows h s' := by
  refine ⟨hlog ▸ hs.log, ?_⟩
  rw [hlog, hsessions]
  exact hs.table

theorem Follows.event (hs : Follows h s) {e : Ev} (he : ∀ p, e ≠ .removed p) (hlog : s'.log = e :: s.log)
    (hsessions : ∃ more, s'.sessions = s.sessions ++ more) : Follows h s' := by
  obtain ⟨extra, htable⟩ := hs.table
  obtain ⟨more, hsessions⟩ := hsessions
  refine ⟨hlog ▸ hs.log.trans (List.suffix_cons _ _), extra ++ more, ?_⟩
  rw [hsessions, htable, hlog, since_cons hs.log, List.append_assoc]
  exact congrArg (· ++ (extra ++ more)) (List.map_congr_left fun entry _ => (kept_cons_of_ne he entry).symm)

theorem Follows.act (hh : Listed h) (hs : Follows h s) (a : Act) : Follows h (s.act a) := by
  cases a with
  | add p =>
    rw [EventLoop.act]
    split
    · exact hs
    · obtain ⟨env, heq⟩ | ⟨env, poller, heq, -, -⟩ := s.add_cases p
      · rw [heq]
        exact hs.same rfl rfl
      · rw [heq]
        exact hs.event (e := .added p) nofun rfl ⟨[some p], rfl⟩
  | remove p =>
    obtain ⟨poller, events, heq, -, -⟩ := s.remove_eq p
    obtain ⟨extra, htable⟩ := hs.table
    rw [EventLoop.act, heq]
    refine ⟨hs.log.trans (List.suffix_cons _ _), ?_⟩
    change ∃ extra, clear p s.sessions = h.sessions.map (kept (since h.log (.removed p :: s.log))) ++ extra
    have hnodup : (h.sessions.filterMap id).Nodup := hh.table ▸ hh.nodup
    rw [since_cons hs.log, htable, clear_append, ← clear_kept hnodup]
    split
    · exact ⟨extra, rfl⟩
    · next hp => exact ⟨clear p extra, by rw [clear_of_not_mem hp]⟩
  | reopen p fd =>
    obtain ⟨poller, heq, -⟩ := s.pollerDel_eq p
    rw [EventLoop.act, heq]
    exact hs.same rfl rfl

theorem Follows.onReady (hh : Listed h) (hs : Follows h s) (p : Pollable) (flags : Nat) : Follows h (s.onReady p flags) := by
  have hfold (acts : List Act) {s : EventLoop} (hs : Follows h s) : Follows h (acts.foldl EventLoop.act s) := by
    induction acts generalizing s with
    | nil => exact hs
    | cons a rest ih => exact ih (hs.act hh a)
  have hnote : Follows h (s.note (.ready p flags)) := hs.event (e := .ready p flags) nofun rfl ⟨[], (List.append_nil _).symm⟩
  unfold EventLoop.onReady script
  split
  · exact hnote
  · exact hfold _ (hnote.same rfl rfl)

/-- The entry that the drain finds at a turn. -/
theorem Follows.entry (hs : Follows h s) {front : List (Option Pollable)} {entry : Option Pollable}
    {back : List (Option Pollable)} (hsplit : h.sessions = front ++ entry :: back) :
    s.sessions[front.length]? = some (kept (since h.log s.log) entry) := by
  obtain ⟨extra, htable⟩ := hs.table
  rw [htable, hsplit, List.map_append, List.append_assoc, List.getElem?_append_right (Nat.le_of_eq (List.length_map _)),
    List.length_map, Nat.sub_self]
  rfl

/-- **The drain** gives a turn to every pollable that is registered when it begins. -/
theorem drain_eq_serve (hh : Listed h) {front back : List (Option Pollable)} (hsplit : h.sessions = front ++ back)
    (hs : Follows h s) :
    drain back.length front.length s = serve h id ((back.filterMap id).map (·, 0)) s := by
  induction back generalizing front s with
  | nil => rfl
  | cons entry back ih =>
    have hentry := hs.entry hsplit
    have hnext : h.sessions = (front ++ [entry]) ++ back := by rw [hsplit, List.append_assoc]; rfl
    have hlen : (front ++ [entry]).length = front.length + 1 := List.length_append
    rw [List.length_cons, drain, hentry, ← hlen]
    cases entry with
    | none => exact ih hnext hs
    | some p =>
      change _ = serve h id _ (if .removed p ∈ since h.log s.log then s else s.onReady p 0)
      by_cases hgone : .removed p ∈ since h.log s.log
      · rw [kept_gone hgone, if_pos hgone]
        exact ih hnext hs
      · rw [kept_eq_some.mpr ⟨rfl, hgone⟩, if_neg hgone]
        exact ih hnext (hs.onReady hh p 0)

/-- The batch of `w`, from the event `k` on, without what has been removed since. -/
structure Trails (w : EventLoop) (k : Int) (s : EventLoop) : Prop where
  log : w.log <:+ s.log
  count : s.currentEventCount = w.currentEventCount
  events : ∀ j : Nat, k ≤ j → j < w.currentEventCount →
    s.events[j]? = w.events[j]?.map fun e => { e with token := kept (since w.log s.log) e.token }

variable {w : EventLoop} {k : Int}

theorem Trails.same (hs : Trails w k s) (hlog : s'.log = s.log) (hcount : s'.currentEventCount = s.currentEventCount)
    (hevents : s'.events = s.events) : Trails w k s' := by
  refine ⟨hlog ▸ hs.log, hcount.trans hs.count, ?_⟩
  rw [hlog, hevents]
  exact hs.events

theorem Trails.event (hs : Trails w k s) {e : Ev} (he : ∀ p, e ≠ .removed p) (hlog : s'.log = e :: s.log)
    (hcount : s'.currentEventCount = s.currentEventCount) (hevents : s'.events = s.events) : Trails w k s' := by
  refine ⟨hlog ▸ hs.log.trans (List.suffix_cons _ _), hcount.trans hs.count, fun j hk hj => ?_⟩
  rw [hevents, hs.events j hk hj, hlog, since_cons hs.log]
  congr 1
  funext e'
  rw [kept_cons_of_ne he]

theorem Trails.act (hs : Trails w k s) (hk : Scrubs k s) (a : Act) : Trails w k (s.act a) := by
  cases a with
  | add p =>
    rw [EventLoop.act]
    split
    · exact hs
    · obtain ⟨env, heq⟩ | ⟨env, poller, heq, -, -⟩ := s.add_cases p
      · rw [heq]
        exact hs.same rfl rfl rfl
      · rw [heq]
        exact hs.event (e := .added p) nofun rfl rfl rfl
  | remove p =>
    obtain ⟨poller, events, heq, -, hevents⟩ := s.remove_eq p
    rw [EventLoop.act, heq]
    refine ⟨hs.log.trans (List.suffix_cons _ _), hs.count, fun j hkj hj => ?_⟩
    change events[j]? = w.events[j]?.map fun e => { e with token := kept (since w.log (.removed p :: s.log)) e.token }
    rw [hevents k hk j hkj (hs.count ▸ hj), hs.events j hkj hj, since_cons hs.log, Option.map_map]
    congr 1
    funext e
    rw [Function.comp_apply, kept_removed]
    split
    · rfl
    · rfl
  | reopen p fd =>
    obtain ⟨poller, heq, -⟩ := s.pollerDel_eq p
    rw [EventLoop.act, heq]
    exact hs.same rfl rfl rfl

theorem Trails.onReady (hs : Trails w k s) (hk : Scrubs k s) (p : Pollable) (flags : Nat) :
    Trails w k (s.onReady p flags) := by
  have hfold (acts : List Act) {s : EventLoop} (hs : Trails w k s) (hk : Scrubs k s) :
      Trails w k (acts.foldl EventLoop.act s) := by
    induction acts generalizing s with
    | nil => exact hs
    | cons a rest ih =>
      have hacts := s.acts_act a
      refine ih (hs.act hk a) ?_
      rw [Scrubs, hacts.idx, hacts.count]
      exact hk
  have hnote : Trails w k (s.note (.ready p flags)) := hs.event (e := .ready p flags) nofun rfl rfl rfl
  unfold EventLoop.onReady script
  split
  · exact hnote
  · exact hfold _ (hnote.same rfl rfl rfl) hk

/-- The step to the next event. -/
def bump (s : EventLoop) : EventLoop := { s with currentEventIdx := s.currentEventIdx + 1 }

/-- **The loop over the batch** gives a turn to every event. -/
theorem dispatch_eq_serve {front back : List ReadyEvent} {rest : List (Pollable × Nat)}
    (hsplit : w.events.take w.currentEventCount.toNat = front ++ back)
    (hback : back = rest.map fun x => ⟨some x.1, x.2⟩) (hidx : s.currentEventIdx = front.length)
    (hs : Trails w s.currentEventIdx s) : dispatch back.length s = serve w bump rest s := by
  induction rest generalizing front back s with
  | nil =>
    subst hback
    rfl
  | cons x rest ih =>
    obtain ⟨p, flags⟩ := x
    subst hback
    have hlen : front.length < w.currentEventCount.toNat := by
      have := congrArg List.length hsplit
      rw [List.length_take, List.length_append, List.map_cons, List.length_cons] at this
      omega
    have hevent : w.events[front.length]? = some ⟨some p, flags⟩ := by
      have hget : (w.events.take w.currentEventCount.toNat)[front.length]? = some ⟨some p, flags⟩ := by
        rw [hsplit, List.getElem?_append_right (Nat.le_refl _), Nat.sub_self]
        rfl
      rwa [List.getElem?_take_of_lt hlen] at hget
    have hfound := hs.events front.length (Int.le_of_eq hidx) (by omega)
    rw [hevent] at hfound
    have hnext : w.events.take w.currentEventCount.toNat
        = (front ++ [⟨some p, flags⟩]) ++ rest.map fun x => ⟨some x.1, x.2⟩ := by
      rw [hsplit, List.append_assoc]
      rfl
    have hrest : Trails w (s.currentEventIdx + 1) s := ⟨hs.log, hs.count, fun j hj => hs.events j (by omega)⟩
    have hi : s.currentEventIdx.toNat = front.length := by omega
    have hturn {s₁ : EventLoop} (hs₁ : Trails w (s.currentEventIdx + 1) s₁)
        (hidx₁ : s₁.currentEventIdx = s.currentEventIdx) :
        dispatch (rest.map fun x => (⟨some x.1, x.2⟩ : ReadyEvent)).length s₁.bump = serve w bump rest s₁.bump := by
      have hstep : s₁.bump.currentEventIdx = s.currentEventIdx + 1 := congrArg (· + 1) hidx₁
      refine ih hnext rfl ?_ ?_
      · rw [hstep, hidx, List.length_append]
        rfl
      · rw [hstep]
        exact hs₁.same rfl rfl rfl
    rw [List.map_cons, List.length_cons, dispatch, hi, hfound]
    change dispatch _ (bump _) = serve w bump rest (bump _)
    by_cases hgone : .removed p ∈ since w.log s.log
    · rw [if_pos hgone]
      simp only [Option.map_some, kept_gone hgone]
      exact hturn hrest rfl
    · rw [if_neg hgone]
      simp only [Option.map_some, kept_eq_some.mpr ⟨rfl, hgone⟩]
      refine hturn (hrest.onReady (Or.inr ⟨by omega, Int.lt_succ _⟩) p flags) ?_
      exact (acts_script (s.note (.ready p flags))).idx

/-- A call of `on_ready` on `p`. -/
def isReady (p : Pollable) : Ev → Bool
  | .ready q _ => q = p
  | .added _ | .removed _ => false

theorem countP_onReady (s : EventLoop) (p q : Pollable) (flags : Nat) :
    (since s.log (s.onReady q flags).log).countP (isReady p) = if q = p then 1 else 0 := by
  have hacts := acts_script (s.note (.ready q flags))
  have hnew : (since (s.note (.ready q flags)).log (s.onReady q flags).log).countP (isReady p) = 0 := by
    refine List.countP_eq_zero.mpr fun e he => ?_
    cases e with
    | ready p' flags' => exact absurd he (hacts.quiet p' flags')
    | added _ => exact Bool.false_ne_true
    | removed _ => exact Bool.false_ne_true
  have hnote : since s.log (s.note (.ready q flags)).log = [.ready q flags] := since_append [_] s.log
  have hsplit : since s.log (s.onReady q flags).log = since (s.note (.ready q flags)).log (s.onReady q flags).log
      ++ since s.log (s.note (.ready q flags)).log := since_trans (List.suffix_cons _ s.log) hacts.log
  rw [hsplit, List.countP_append, hnew, hnote, List.countP_singleton, Nat.zero_add]
  exact if_congr decide_eq_true_iff rfl rfl

/-- A listed pollable is called once for every turn it has, unless it is removed. -/
theorem serve_calls {start : EventLoop} {next : EventLoop → EventLoop} (hnext : ∀ s, (next s).log = s.log)
    (list : List (Pollable × Nat)) (hs : start.log <:+ s.log) (p : Pollable) :
    s.log <:+ (serve start next list s).log ∧
      (since s.log (serve start next list s).log).countP (isReady p) ≤ (list.map Prod.fst).count p ∧
      ((since s.log (serve start next list s).log).countP (isReady p) < (list.map Prod.fst).count p →
        .removed p ∈ since start.log (serve start next list s).log) := by
  induction list generalizing s with
  | nil =>
    rw [serve, since_self]
    exact ⟨List.suffix_rfl, Nat.le_refl _, fun h => absurd h (Nat.lt_irrefl 0)⟩
  | cons x list ih =>
    obtain ⟨q, flags⟩ := x
    rw [serve, List.map_cons, List.count_cons]
    by_cases hgone : .removed q ∈ since start.log s.log
    · rw [if_pos hgone]
      have hs' : start.log <:+ (next s).log := hnext s ▸ hs
      obtain ⟨hlog, hle, hlt⟩ := ih hs'
      rw [hnext] at hlog hle hlt
      refine ⟨hlog, by omega, fun h => ?_⟩
      by_cases hq : q = p
      · subst hq
        rw [since_trans hs hlog]
        exact List.mem_append_right _ hgone
      · rw [if_neg (by simpa using hq)] at h
        exact hlt h
    · rw [if_neg hgone]
      have hready := s.onReady_log q flags
      have hs' : start.log <:+ (next (s.onReady q flags)).log := by
        rw [hnext]
        exact hs.trans hready
      obtain ⟨hlog, hle, hlt⟩ := ih hs'
      rw [hnext] at hlog hle hlt
      have hcount := s.countP_onReady p q flags
      rw [since_trans hready hlog, List.countP_append, hcount]
      have hbeq : (if q == p then 1 else 0) = if q = p then 1 else 0 := if_congr beq_iff_eq rfl rfl
      rw [hbeq]
      exact ⟨hready.trans hlog, by omega, fun h => hlt (by omega)⟩

theorem cfg_drain (n i : Nat) (s : EventLoop) : (drain n i s).cfg = s.cfg := by
  induction n generalizing i s with
  | zero => rfl
  | succ n ih =>
    rw [drain, ih]
    split
    · exact onReady_cfg ..
    · rfl

theorem cfg_dispatch (n : Nat) (s : EventLoop) : (dispatch n s).cfg = s.cfg := by
  induction n generalizing s with
  | zero => rfl
  | succ n ih =>
    rw [dispatch, ih]
    dsimp only
    split
    · exact onReady_cfg ..
    · rfl

theorem cfg_turn (s : EventLoop) : s.turn.cfg = s.cfg := by
  unfold turn
  split
  · exact cfg_drain ..
  · obtain ⟨env, events, hpoll, -⟩ := s.poll_spec
    have hcfg : s.poll.cfg = s.cfg := by rw [hpoll]
    exact (cfg_dispatch ..).trans hcfg

theorem cfg_run (s : EventLoop) (calls : List (Call × Env)) : (run s calls).cfg = s.cfg := by
  induction calls generalizing s with
  | nil => rfl
  | cons c rest ih =>
    refine (ih (s.call c)).trans ?_
    unfold call
    split
    · exact (acts_act _ _).cfg
    · exact (cfg_turn _).trans (acts_script _).cfg

/-- The batch of a step. -/
def batch (s : EventLoop) : List (Pollable × Nat) :=
  (s.events.take s.currentEventCount.toNat).filterMap fun e => e.token.map (·, e.flags)

/-- All events of a batch have tokens when it begins. -/
theorem batch_poll (s : EventLoop) :
    s.poll.events.take s.poll.currentEventCount.toNat = s.poll.batch.map fun x => ⟨some x.1, x.2⟩ := by
  have htokens : ∀ e ∈ s.poll.events.take s.poll.currentEventCount.toNat, ∃ p, e.token = some p := by
    obtain ⟨env, events, h, -, htokens⟩ := s.wait_cases
    intro e he
    obtain ⟨j, hj⟩ := List.mem_iff_getElem?.mp he
    unfold poll at hj
    dsimp only at hj
    rw [h] at hj
    have hlt : j < s.wait.1.toNat := by
      obtain ⟨hj, -⟩ := List.getElem?_eq_some_iff.mp hj
      rw [List.length_take] at hj
      exact Nat.lt_of_lt_of_le hj (Nat.min_le_left _ _)
    rw [List.getElem?_take_of_lt hlt] at hj
    obtain ⟨fd, p, -, hp⟩ := htokens j e (by omega) hj
    exact ⟨p, hp⟩
  unfold batch
  generalize s.poll.events.take s.poll.currentEventCount.toNat = events at htokens
  induction events with
  | nil => rfl
  | cons e events ih =>
    obtain ⟨p, hp⟩ := htokens e List.mem_cons_self
    have hrest := ih fun e' he' => htokens e' (List.mem_cons_of_mem _ he')
    obtain ⟨token, flags⟩ := e
    subst hp
    exact congrArg (⟨some p, flags⟩ :: ·) hrest

/-- The turn of a step in busy-poll mode. -/
theorem turn_busy (hs : Listed s) (hbusy : s.cfg.busyPoll = true) :
    s.turn = (serve s id ((registry s.log).map (·, 0)) s).sweep := by
  have hdrain := drain_eq_serve hs (List.nil_append s.sessions).symm (Follows.refl s)
  rw [turn, if_pos hbusy, ← hs.table]
  exact congrArg sweep hdrain

/-- The turn of a step in poller mode. -/
theorem turn_polling (s : EventLoop) (hbusy : s.cfg.busyPoll = false) :
    s.turn.log = (serve s.poll bump s.poll.batch s.poll).log := by
  have hbatch := s.batch_poll
  obtain ⟨env, events, hpoll, hlen, -⟩ := s.poll_spec
  have hidx : s.poll.currentEventIdx = 0 := by rw [hpoll]
  have htrails : Trails s.poll s.poll.currentEventIdx s.poll := by
    refine ⟨List.suffix_rfl, rfl, fun j _ _ => ?_⟩
    rw [since_self]
    cases s.poll.events[j]? with
    | none => rfl
    | some e => rw [Option.map_some, kept_nil]
  have hcount : s.poll.currentEventCount.toNat = (s.poll.events.take s.poll.currentEventCount.toNat).length := by
    rw [List.length_take, hpoll]
    exact (Nat.min_eq_left hlen).symm
  have hsplit : s.poll.events.take s.poll.currentEventCount.toNat
      = [] ++ s.poll.events.take s.poll.currentEventCount.toNat := rfl
  have hdispatch := dispatch_eq_serve hsplit hbatch hidx htrails
  rw [← hcount] at hdispatch
  rw [turn, if_neg (by rw [hbusy]; exact Bool.false_ne_true)]
  exact (congrArg log hdispatch :)

/-- **What the reactor calls.** In every run `on_ready` is called on registered pollables only. A step in busy-poll
mode gives a turn to every pollable that is registered when the drain begins, so that none is called twice, none that
was added during the drain is called, and one that was not called has been removed. A step in poller mode gives a
turn to every event of its batch. -/
theorem calls_exact (cfg : EventLoopConfig) (fds : Pollable → Option Nat) (calls : List (Call × Env)) (env : Env) :
    let s := { run (freshLoop cfg fds) calls with env := env }
    let start := s.script
    (∀ newer p flags older, s.step.log = newer ++ .ready p flags :: older → p ∈ registry older) ∧
      (cfg.busyPoll = true →
        s.step.log = (serve start id ((registry start.log).map (·, 0)) start).log ∧
          ∀ p, let n := (since start.log s.step.log).countP (isReady p)
            n ≤ 1 ∧ (0 < n → p ∈ registry start.log) ∧
              (p ∈ registry start.log → n = 0 → .removed p ∈ since start.log s.step.log)) ∧
      (cfg.busyPoll = false → s.step.log = (serve start.poll bump start.poll.batch start.poll).log) := by
  intro s start
  have hs : Orderly s := (orderly_run cfg fds calls).acts (acts_env _ env)
  have hstart : Orderly start := hs.acts (acts_script s)
  have hmode : start.cfg.busyPoll = cfg.busyPoll := congrArg EventLoopConfig.busyPoll
    ((acts_script s).cfg.trans (cfg_run (freshLoop cfg fds) calls))
  refine ⟨fun newer p flags older h => (orderly_turn hstart).called.mem h, fun hbusy => ?_, fun hbusy => ?_⟩
  · have hlog : s.step.log = (serve start id ((registry start.log).map (·, 0)) start).log :=
      (congrArg log (turn_busy hstart.toListed (hmode.trans hbusy)) :)
    refine ⟨hlog, fun p => ?_⟩
    obtain ⟨-, hle, hlt⟩ := serve_calls (fun s => (rfl : (id s).log = s.log)) ((registry start.log).map (·, 0))
      (List.suffix_rfl : start.log <:+ start.log) p
    rw [← hlog, List.map_map] at hle hlt
    have hfst : (registry start.log).map (Prod.fst ∘ (·, 0)) = registry start.log := List.map_id _
    rw [hfst] at hle hlt
    have honce := List.nodup_iff_count_le_one.mp hstart.nodup p
    refine ⟨Nat.le_trans hle honce, fun hpos => List.count_pos_iff.mp (Nat.lt_of_lt_of_le hpos hle), fun hp hzero => hlt ?_⟩
    rw [hzero]
    exact List.count_pos_iff.mpr hp
  · exact start.turn_polling (hmode.trans hbusy)

/-- Three pollables: the first removes the second and adds the third when it is called. -/
def crossCalls : List (Call × Env) := [(.act (.add 1), {}), (.act (.add 2), {})]

def crossEnv : Env := { waits := [some [(1, 1), (2, 1)]], scripts := [[], [.remove 2, .add 3]] }

theorem cross_calls_exact :
    let s (busy : Bool) := { run (freshLoop { busyPoll := busy } some) crossCalls with env := crossEnv }
    (s true).step.log = (serve (s true).script id [(1, 0), (2, 0)] (s true).script).log ∧
      (s false).step.log = (serve (s false).script.poll bump (s false).script.poll.batch (s false).script.poll).log ∧
      (s false).step.log = [.added 3, .removed 2, .ready 1 1, .added 2, .added 1] :=
  ⟨((calls_exact { busyPoll := true } some crossCalls crossEnv).2.1 rfl).1,
    (calls_exact { busyPoll := false } some crossCalls crossEnv).2.2 rfl, by decide⟩

/-! ### The registration table after a step -/

/-- The table lists the registered pollables, and nothing else. -/
def Swept (s : EventLoop) : Prop :=
  s.sessions = (registry s.log).map some ∧ s.sessionCount = (registry s.log).length

/-- No pollable has been removed while it was registered. -/
def NoneRemoved : List Ev → Prop
  | [] => True
  | .removed p :: older => p ∉ registry older ∧ NoneRemoved older
  | .added _ :: older | .ready _ _ :: older => NoneRemoved older

def isAdded : Ev → Bool
  | .added _ => true
  | .removed _ | .ready _ _ => false

/-- What is registered has been added, and all that has been added is registered if none of it was removed. -/
theorem length_registry (log : List Ev) :
    (registry log).length ≤ log.countP isAdded ∧ ((registry log).length = log.countP isAdded ↔ NoneRemoved log) := by
  induction log with
  | nil => exact ⟨Nat.le_refl 0, iff_of_true rfl trivial⟩
  | cons e older ih =>
    obtain ⟨hle, hiff⟩ := ih
    cases e with
    | added p =>
      rw [registry, List.length_append, List.countP_cons_of_pos rfl, NoneRemoved, ← hiff]
      exact ⟨Nat.succ_le_succ hle, Nat.succ_inj⟩
    | ready p flags =>
      rw [registry, List.countP_cons_of_neg Bool.false_ne_true, NoneRemoved]
      exact ⟨hle, hiff⟩
    | removed p =>
      rw [registry, List.countP_cons_of_neg Bool.false_ne_true, NoneRemoved]
      by_cases hp : p ∈ registry older
      · have hlen := List.length_erase_of_mem hp
        have hpos := List.length_pos_of_mem hp
        exact ⟨by omega, iff_of_false (by omega) fun h => h.1 hp⟩
      · rw [List.erase_of_not_mem hp, and_iff_right hp]
        exact ⟨hle, hiff⟩

theorem length_clear (p : Pollable) (entries : List (Option Pollable)) : (clear p entries).length = entries.length := by
  induction entries with
  | nil => rfl
  | cons entry entries ih =>
    rw [clear]
    split
    · rfl
    · exact congrArg (· + 1) ih

/-- The table grows by what is added, and by nothing else. -/
def Grows (s s' : EventLoop) : Prop :=
  s'.sessions.length + s.log.countP isAdded = s.sessions.length + s'.log.countP isAdded

theorem Grows.trans {s'' : EventLoop} (h : Grows s s') (h' : Grows s' s'') : Grows s s'' := by
  unfold Grows at h h' ⊢
  omega

theorem grows_act (s : EventLoop) (a : Act) : Grows s (s.act a) := by
  cases a with
  | add p =>
    rw [act]
    split
    · rfl
    · obtain ⟨env, h⟩ | ⟨env, poller, h, -⟩ := s.add_cases p
      · rw [h]
        rfl
      · rw [h, Grows]
        change (s.sessions ++ [some p]).length + _ = _ + (Ev.added p :: s.log).countP isAdded
        rw [List.length_append, List.countP_cons_of_pos rfl, List.length_singleton]
        omega
  | remove p =>
    obtain ⟨poller, events, h, -⟩ := s.remove_eq p
    rw [act, h, Grows]
    change (clear p s.sessions).length + _ = _ + (Ev.removed p :: s.log).countP isAdded
    rw [length_clear, List.countP_cons_of_neg Bool.false_ne_true]
  | reopen p fd =>
    obtain ⟨poller, h, -⟩ := s.pollerDel_eq p
    rw [act, h]
    rfl

theorem grows_script (s : EventLoop) : Grows s s.script := by
  have hfold (acts : List Act) (s : EventLoop) : Grows s (acts.foldl act s) := by
    induction acts generalizing s with
    | nil => rfl
    | cons a rest ih => exact (s.grows_act a).trans (ih _)
  unfold script
  split
  · rfl
  · exact hfold _ { s with env := _ }

theorem grows_dispatch (n : Nat) (s : EventLoop) : Grows s (dispatch n s) := by
  induction n generalizing s with
  | zero => rfl
  | succ n ih =>
    rw [dispatch]
    refine Grows.trans ?_ (ih _)
    split
    · next p flags _ =>
      have hready : Grows s (s.note (.ready p flags)) := by
        rw [Grows]
        exact congrArg _ (List.countP_cons_of_neg Bool.false_ne_true).symm
      exact hready.trans (grows_script (s.note (.ready p flags)))
    · rfl

theorem grows_turn (hbusy : s.cfg.busyPoll = false) : Grows s s.turn := by
  obtain ⟨env, events, hpoll, -⟩ := s.poll_spec
  have hwait : Grows s s.poll := by
    rw [hpoll]
    rfl
  rw [turn, hbusy, if_neg Bool.false_ne_true]
  exact hwait.trans (grows_dispatch _ _)

theorem grows_run (hbusy : s.cfg.busyPoll = false) (calls : List (Call × Env)) : Grows s (run s calls) := by
  induction calls generalizing s with
  | nil => rfl
  | cons c rest ih =>
    obtain ⟨call, env⟩ := c
    cases call with
    | act a =>
      refine Grows.trans (grows_act { s with env := env } a) (ih ?_)
      exact (congrArg EventLoopConfig.busyPoll (acts_act { s with env := env } a).cfg).trans hbusy
    | step =>
      have hscript := congrArg EventLoopConfig.busyPoll (acts_script { s with env := env }).cfg
      refine Grows.trans ((grows_script { s with env := env }).trans (grows_turn (hscript.trans hbusy))) (ih ?_)
      exact (congrArg EventLoopConfig.busyPoll (cfg_turn _)).trans (hscript.trans hbusy)

/-- Entries without a null are as many as those that are not null. -/
theorem swept_iff (hs : Listed s) : Swept s ↔ s.sessions.length = (registry s.log).length := by
  refine ⟨And.right, fun hlen => ⟨?_, hlen⟩⟩
  rw [← hs.table] at hlen ⊢
  have hall := List.filterMap_length_eq_length.mp hlen.symm
  generalize s.sessions = entries at hall
  clear hlen
  induction entries with
  | nil => rfl
  | cons entry entries ih =>
    obtain ⟨p, rfl⟩ := Option.isSome_iff_exists.mp (hall entry List.mem_cons_self)
    exact congrArg (some p :: ·) (ih fun entry' hentry => hall entry' (List.mem_cons_of_mem _ hentry))

/-- **The table after a step** is the list of the registered pollables in busy-poll mode, and in poller mode exactly as long
as no registered pollable has been removed. -/
theorem table_swept (cfg : EventLoopConfig) (fds : Pollable → Option Nat) (calls : List (Call × Env)) (env : Env) :
    let s := { run (freshLoop cfg fds) calls with env := env }.step
    Swept s ↔ cfg.busyPoll = true ∨ NoneRemoved s.log := by
  intro s
  have hstart := (orderly_run cfg fds calls).acts ((acts_env _ env).trans (acts_script _))
  have hs : Orderly s := orderly_turn hstart
  have hmode : { run (freshLoop cfg fds) calls with env := env }.script.cfg.busyPoll = cfg.busyPoll := by
    rw [(acts_script _).cfg]
    exact congrArg EventLoopConfig.busyPoll (cfg_run (freshLoop cfg fds) calls)
  rw [swept_iff hs.toListed]
  cases hbusy : cfg.busyPoll with
  | true =>
    refine iff_of_true ?_ (Or.inl rfl)
    have hsweep : s = sweep _ := turn_busy hstart.toListed (hmode.trans hbusy)
    rw [← hs.table, eq_comm, List.filterMap_length_eq_length]
    intro entry hentry
    rw [hsweep] at hentry
    exact List.of_mem_filter hentry
  | false =>
    have hgrows : Grows (freshLoop cfg fds) s :=
      (grows_run hbusy calls).trans
        ((grows_script { run (freshLoop cfg fds) calls with env := env }).trans (grows_turn (hmode.trans hbusy)))
    have hlen : s.sessions.length + 0 = 0 + s.log.countP isAdded := hgrows
    rw [Nat.add_zero, Nat.zero_add] at hlen
    rw [hlen, eq_comm, (length_registry s.log).2, or_iff_right Bool.false_ne_true]

theorem cross_table_swept :
    let s (busy : Bool) := { run (freshLoop { busyPoll := busy } some) crossCalls with env := crossEnv }.step
    Swept (s true) ∧ registry (s true).log = [1, 3] ∧ ¬ Swept (s false) ∧
      Swept { run (freshLoop { busyPoll := false } some) crossCalls with env := {} }.step := by
  refine ⟨(table_swept { busyPoll := true } some crossCalls crossEnv).mpr (Or.inl rfl), by decide, ?_,
    (table_swept { busyPoll := false } some crossCalls {}).mpr (Or.inr trivial)⟩
  refine fun h => ((table_swept { busyPoll := false } some crossCalls crossEnv).mp h).elim Bool.false_ne_true fun hnone => ?_
  exact absurd hnone.1 (by decide)

/-- In poller mode the entry of a removed pollable stays. -/
theorem polling_table_not_swept :
    let s := { run (freshLoop { busyPoll := false } some) [(.act (.add 1), {}), (.act (.remove 1), {})] with env := {} }.step
    s.sessions = [none] ∧ registry s.log = [] ∧ s.sessionCount = 1 := by
  decide

end EventLoop

end Lepton.Reactor
