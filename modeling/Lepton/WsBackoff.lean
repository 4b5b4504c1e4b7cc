import Lepton.WsMarks

/-! The delays between automatic attempts to connect. The attempt after the `k`-th one that fails without an Open in
between is made `D k` after the failure, in runs in which the pool has a buffer for every attempt: `start_connect`
without a buffer fails and sets no time for the next attempt. -/

namespace Lepton.Ws

variable {s s' : WsSession}

/-- The delays of the specification, in nanoseconds. -/
def backoff : Nat → Int
  | 0 | 1 => 0
  | 2 => 1000000000
  | n + 3 => min (2 * backoff (n + 2)) 30000000000

/-- The attempts since the last Open. -/
def attempts : List Mark → Nat
  | [] | .opened :: _ => 0
  | .dial :: before => attempts before + 1
  | _ :: before => attempts before

/-- The automatic attempts since the last Open. -/
def redials : List Mark → Nat
  | [] | .opened :: _ => 0
  | .redial _ :: before => redials before + 1
  | _ :: before => redials before

/-- The times at which the last attempt, or its connection, has ended. -/
def failures : List Mark → List Int
  | [] | .dial :: _ => []
  | .ended t :: before => t :: failures before
  | _ :: before => failures before

/-- If the last mark is that of an automatic attempt, it has waited since the failure of the attempt before it. -/
def Delayed : List Mark → Prop
  | .redial t :: before =>
    attempts before = 0 ∨ failures before ≠ [] ∧ ∀ failed ∈ failures before, failed + backoff (attempts before) ≤ t
  | _ => True

instance : DecidablePred Delayed
  | [] => isTrue trivial
  | m :: before => by cases m <;> unfold Delayed <;> infer_instance

/-- So it is with every automatic attempt of the run. -/
def Spaced (marks : List Mark) : Prop := ∀ past ∈ marks.tails, Delayed past

instance : DecidablePred Spaced := fun marks => inferInstanceAs (Decidable (∀ past ∈ marks.tails, Delayed past))

/-- If the last mark is that of an attempt, it is automatic or the first one. -/
def Started : List Mark → Prop
  | .dial :: .redial _ :: _ => True
  | .dial :: before => attempts before = 0
  | _ => True

instance : DecidablePred Started
  | [] => isTrue trivial
  | m :: before => by
      cases m with
      | dial =>
        cases before with
        | nil => exact isTrue rfl
        | cons m before => cases m <;> unfold Started <;> infer_instance
      | _ => exact isTrue trivial

/-- The times that the clock has shown. -/
def Mark.time : Mark → Option Int
  | .redial t | .ended t => some t
  | _ => none

/-- A run with a buffer for every attempt, over a clock that does not go back, in which the user connects only for the
first attempt since the last Open. -/
structure Orderly (s : WsSession) : Prop where
  fed : ∀ linked, .starved linked ∉ s.log
  started : ∀ past ∈ s.marks.tails, Started past
  clock : (s.marks.filterMap Mark.time).Pairwise (· ≥ ·)

instance : DecidablePred Orderly := fun s =>
  decidable_of_iff ((∀ linked, .starved linked ∉ s.log) ∧ (∀ past ∈ s.marks.tails, Started past) ∧
      (s.marks.filterMap Mark.time).Pairwise (· ≥ ·))
    ⟨fun h => ⟨h.1, h.2.1, h.2.2⟩, fun h => ⟨h.fed, h.started, h.clock⟩⟩

theorem backoff_nonneg (n : Nat) : 0 ≤ backoff n := by
  fun_induction backoff n with
  | case1 => exact Int.le_refl 0
  | case2 => exact Int.le_refl 0
  | case3 => decide
  | case4 n ih => omega

theorem backoff_le_max (n : Nat) : backoff n ≤ kReconnectMaxNs := by
  unfold kReconnectMaxNs
  fun_induction backoff n with
  | case1 => decide
  | case2 => decide
  | case3 => decide
  | case4 n ih => exact Int.min_le_right _ _

theorem backoff_initial (n : Nat) : 1000000000 ≤ backoff (n + 2) := by
  induction n with
  | zero => exact Int.le_refl _
  | succ n ih =>
    rw [backoff]
    omega

/-- The doubling of the source. -/
theorem nextDelay_backoff (n : Nat) : WsSession.nextDelay (backoff (n + 1)) = backoff (n + 2) := by
  cases n with
  | zero => rfl
  | succ n =>
    have hpos := backoff_initial n
    have hne : backoff (n + 2) ≠ 0 := by omega
    change WsSession.nextDelay (backoff (n + 2)) = backoff (n + 3)
    rw [WsSession.nextDelay, if_neg hne, backoff, kReconnectMaxNs]
    split
    · omega
    · omega

theorem backoff_mono {m n : Nat} (h : m ≤ n) : backoff m ≤ backoff n := by
  have hstep (n : Nat) : backoff n ≤ backoff (n + 1) := by
    match n with
    | 0 => exact Int.le_refl 0
    | 1 => decide
    | n + 2 =>
      have hmax := backoff_le_max (n + 2)
      have hpos := backoff_nonneg (n + 2)
      unfold kReconnectMaxNs at hmax
      rw [backoff.eq_4]
      omega
  exact monotone_nat_of_le_succ hstep h

theorem started_dial {before : List Mark} (h : Started (.dial :: before)) :
    attempts before = 0 ∨ ∃ t past, before = .redial t :: past := by
  cases before with
  | nil => exact Or.inl rfl
  | cons m past =>
    cases m with
    | redial t => exact Or.inr ⟨t, past, rfl⟩
    | _ => exact Or.inl h

/-- With automatic attempts only but for the first, there are as many of them, or one less. -/
theorem attempts_le {marks : List Mark} (h : ∀ past ∈ marks.tails, Started past) :
    attempts marks ≤ redials marks + 1 := by
  -- an automatic attempt is counted before it is made
  suffices hboth : attempts marks ≤ redials marks + 1 ∧
      ∀ t past, marks = .redial t :: past → attempts marks ≤ redials marks from hboth.1
  induction marks with
  | nil => exact ⟨Nat.zero_le _, nofun⟩
  | cons m before ih =>
    rw [List.tails_cons, List.forall_mem_cons] at h
    obtain ⟨hm, hbefore⟩ := h
    obtain ⟨hle, hredial⟩ := ih hbefore
    cases m with
    | dial =>
      refine ⟨?_, nofun⟩
      rw [attempts, redials]
      · rcases started_dial hm with hzero | ⟨t, past, heq⟩
        · omega
        · have := hredial t past heq
          omega
      · nofun
      · nofun
    | redial t => exact ⟨Nat.le_succ_of_le hle, fun _ _ _ => hle⟩
    | opened => exact ⟨Nat.zero_le _, nofun⟩
    | _ => exact ⟨hle, nofun⟩

/-- The marks that neither count an attempt nor end one. -/
def Mark.Aside : Mark → Prop
  | .dial | .redial _ | .ended _ | .opened => False
  | _ => True

theorem Mark.Aside.counts {m : Mark} (h : m.Aside) (before : List Mark) :
    attempts (m :: before) = attempts before ∧ redials (m :: before) = redials before ∧
      failures (m :: before) = failures before ∧ Delayed (m :: before) := by
  cases m with
  | dial | redial | ended | opened => exact absurd h id
  | _ => exact ⟨rfl, rfl, rfl, trivial⟩

theorem failures_shown {marks : List Mark} {t : Int} (h : t ∈ failures marks) : t ∈ marks.filterMap Mark.time := by
  induction marks with
  | nil => exact absurd h List.not_mem_nil
  | cons m before ih =>
    cases m with
    | ended t' =>
      rcases List.mem_cons.mp h with rfl | h
      · exact List.mem_cons_self
      · exact List.mem_cons_of_mem _ (ih h)
    | redial t' => exact List.mem_cons_of_mem _ (ih h)
    | dial => exact absurd h List.not_mem_nil
    | _ => exact ih h

theorem spaced_cons {m : Mark} {before : List Mark} (hm : Delayed (m :: before)) (hbefore : Spaced before) :
    Spaced (m :: before) := by
  unfold Spaced
  rw [List.tails_cons]
  exact List.forall_mem_cons.mpr ⟨hm, hbefore⟩

theorem spaced_pooled {old new : List Mark} (h : WsSession.Pooled old new) (hold : Spaced old) : Spaced new := by
  obtain ⟨calls, rfl⟩ := h
  induction calls with
  | nil => exact hold
  | cons call calls ih => exact spaced_cons trivial ih

/-- The delay is that of the automatic attempts made so far, and the next one waits for it. -/
structure Spaces (s : WsSession) : Prop where
  delay : s.reconnectDelayNs = backoff (redials s.marks + 1)
  due : ∀ failed ∈ failures s.marks, failed + backoff (attempts s.marks) ≤ s.reconnectAtNs
  spaced : Spaced s.marks

/-- A dead session that reconnects knows when its last attempt has failed. -/
def Scheduled (s : WsSession) : Prop :=
  s.autoReconnect = true → ¬ s.state.Live → attempts s.marks = 0 ∨ failures s.marks ≠ []

namespace WsSession

theorem orderly_past (hlog : s.log <:+ s'.log) (hmarks : s.marks <:+ s'.marks) (h : Orderly s') :
    Orderly s where
  fed linked he := h.fed linked (hlog.subset he)
  started past hpast := h.started past ((List.mem_tails ..).mpr (((List.mem_tails ..).mp hpast).trans hmarks))
  clock := h.clock.sublist (hmarks.sublist.filterMap _)

theorem spaces_cons {m : Mark} (hs : Spaces s) (hmarks : s'.marks = m :: s.marks) (hm : m.Aside)
    (hdelay : s'.reconnectDelayNs = s.reconnectDelayNs) (hat : s'.reconnectAtNs = s.reconnectAtNs) : Spaces s' := by
  obtain ⟨hattempts, hredials, hfailures, hdelayed⟩ := hm.counts s.marks
  refine ⟨?_, ?_, ?_⟩
  · rw [hdelay, hmarks, hredials]
    exact hs.delay
  · rw [hat, hmarks, hfailures, hattempts]
    exact hs.due
  · rw [hmarks]
    exact spaced_cons hdelayed hs.spaced

theorem spaces_pooled (hdelay : s'.reconnectDelayNs = s.reconnectDelayNs)
    (hat : s'.reconnectAtNs = s.reconnectAtNs) (hmarks : Pooled s.marks s'.marks) (hs : Spaces s) : Spaces s' := by
  have hattempts : attempts s'.marks = attempts s.marks := hmarks.congr fun _ _ => rfl
  have hredials : redials s'.marks = redials s.marks := hmarks.congr fun _ _ => rfl
  have hfailures : failures s'.marks = failures s.marks := hmarks.congr fun _ _ => rfl
  refine ⟨?_, ?_, spaced_pooled hmarks hs.spaced⟩
  · rw [hdelay, hredials]
    exact hs.delay
  · rw [hat, hfailures, hattempts]
    exact hs.due

theorem spaces_enter (st : WsState) (hs : Spaces s) : Spaces (s.enter st) := by
  obtain ⟨log, h, -⟩ := s.enter_eq st
  rw [h]
  exact ⟨hs.delay, hs.due, hs.spaced⟩

/-- A connection that ends sets the time of the next attempt. -/
theorem spaces_shutDown (next : WsState) (hC : Orderly (s.shutDown next)) (hs : Spaces s) :
    Spaces (s.shutDown next) := by
  have hdelay : (s.shutDown next).reconnectDelayNs = s.reconnectDelayNs := by
    obtain ⟨clocks, t, h⟩ := s.shutDown_eq next
    rw [h]
    rfl
  obtain ⟨marks, hpooled, ⟨hmarks, hat, -⟩ | ⟨t, hmarks, hat⟩⟩ := s.marks_shutDown next
  · exact spaces_pooled hdelay hat (hmarks ▸ hpooled) hs
  · have hattempts : attempts marks = attempts s.marks := hpooled.congr fun _ _ => rfl
    have hredials : redials marks = redials s.marks := hpooled.congr fun _ _ => rfl
    have hle := attempts_le hC.started
    have hclock := hC.clock
    rw [hmarks] at hle hclock
    have hwait : backoff (attempts marks) ≤ s.reconnectDelayNs := by
      rw [hs.delay, ← hredials]
      exact backoff_mono hle
    refine ⟨?_, ?_, ?_⟩
    · rw [hdelay, hmarks]
      exact hs.delay.trans (by rw [← hredials]; rfl)
    · rw [hat, hmarks]
      intro failed hfailed
      -- an earlier end of the same attempt is not later than this one
      have hbefore : failed ≤ t := by
        rcases List.mem_cons.mp hfailed with rfl | hfailed
        · exact Int.le_refl _
        · exact (List.pairwise_cons.mp hclock).1 failed (failures_shown hfailed)
      exact Int.add_le_add hbefore hwait
    · rw [hmarks]
      exact spaced_cons trivial (spaced_pooled hpooled hs.spaced)

/-- An attempt to connect. -/
theorem spaces_tryDial {how : Dialing} (h : s.tryDial = (how, s')) (hs : Spaces s) : Spaces s' := by
  have hmarks := s.marks_tryDial
  rw [h] at hmarks
  have htimes : s'.reconnectDelayNs = s.reconnectDelayNs ∧ s'.reconnectAtNs = s.reconnectAtNs := by
    cases how with
    | starved =>
      obtain ⟨acquires, recv, heq⟩ := tryDial_starved h
      rw [heq]
      exact ⟨rfl, rfl⟩
    | refused =>
      obtain ⟨env, recv, deadline, -, heq⟩ := tryDial_refused h
      rw [heq]
      exact ⟨rfl, rfl⟩
    | dialed =>
      obtain ⟨env, deadline, fd, -, heq⟩ := tryDial_dialed h
      rw [heq]
      exact ⟨rfl, rfl⟩
  have hdial : Spaces (s.mark .dial) := ⟨hs.delay, nofun, spaced_cons trivial hs.spaced⟩
  exact spaces_pooled (s := s.mark .dial) htimes.1 htimes.2 hmarks hdial

theorem orderly_entered {st : WsState} (h : Orderly (s.enter st)) : Orderly s :=
  orderly_past (s.enter_log st) (by rw [enter_marks]) h

theorem calling_spaces : Calling Orderly Spaces where
  past := orderly_past
  quiet h hs := spaces_pooled h.reconnectDelayNs h.reconnectAtNs h.marks hs
  down _ next _ hC hs := spaces_enter next (spaces_shutDown next (orderly_entered hC) hs)
  starved h _ hs := spaces_enter _ (spaces_tryDial h hs)
  refused h hC hs := spaces_enter _ (spaces_shutDown _ (orderly_entered hC) (spaces_tryDial h hs))
  dialed h _ hs := spaces_enter _ (spaces_tryDial h hs)
  auto _ hs := ⟨hs.delay, hs.due, hs.spaced⟩
  closing _ _ _ _ hsent := spaces_enter _ hsent

theorem scheduled_live {st : WsState} (hst : st.Live) : Scheduled (s.enter st) := by
  intro _ hdead
  rw [enter_state] at hdead
  exact absurd hst hdead

theorem scheduled_down (s : WsSession) {next : WsState} (hnext : ¬ next.Live) :
    Scheduled ((s.shutDown next).enter next) := by
  intro hauto _
  rw [enter_marks]
  obtain ⟨marks, -, ⟨-, -, hoff⟩ | ⟨t, hmarks, -⟩⟩ := s.marks_shutDown next
  · -- the end of a connection sets the time unless the session does not reconnect
    have hend : next = .disconnected ∨ next = .failed := by
      by_contra hne
      exact hnext ⟨fun h => hne (Or.inl h), fun h => hne (Or.inr h)⟩
    refine absurd ⟨hend, ?_⟩ hoff
    obtain ⟨log, henter, -⟩ := (s.shutDown next).enter_eq next
    obtain ⟨clocks, t, hshut⟩ := s.shutDown_eq next
    rw [henter, hshut] at hauto
    exact hauto
  · rw [hmarks]
    exact Or.inr nofun

theorem calling_scheduled : Calling Orderly Scheduled where
  past := orderly_past
  quiet {s s'} h hs hauto hdead := by
    have hattempts : attempts s'.marks = attempts s.marks := h.marks.congr fun _ _ => rfl
    have hfailures : failures s'.marks = failures s.marks := h.marks.congr fun _ _ => rfl
    rw [hattempts, hfailures]
    exact hs (h.autoReconnect ▸ hauto) (h.state ▸ hdead)
  down s _ hnext _ _ := scheduled_down s hnext
  starved {s s'} h hC _ := by
    obtain ⟨acquires, recv, heq⟩ := tryDial_starved h
    refine absurd ?_ ((orderly_entered hC).fed s.linked)
    rw [heq]
    exact List.mem_cons_self
  refused _ _ _ := scheduled_down _ not_live_failed
  dialed _ _ _ := scheduled_live (by decide)
  auto _ _ := nofun
  closing _ _ _ _ _ := scheduled_live (by decide)

theorem marking_spaces : Marking (· ≠ .upgrading) Orderly fun s => Spaces s ∧ Scheduled s where
  toCalling := calling_spaces.and calling_scheduled
  settled _ h := h
  up _ h := h.not_upgrading
  addMessage _ _ _ hs := ⟨spaces_cons hs.1 rfl trivial rfl rfl, hs.2⟩
  countFrame _ _ _ _ hs := ⟨spaces_cons hs.1 rfl trivial rfl rfl, hs.2⟩
  takePong _ hs := ⟨spaces_cons hs.1 rfl trivial rfl rfl, hs.2⟩
  consume _ _ hs := ⟨spaces_cons hs.1 rfl trivial rfl rfl, hs.2⟩

/-- An automatic attempt doubles the delay, and comes when it is due. -/
theorem spaces_reconnectDue (hdead : ¬ s.state.Live) (hs : Spaces s) (hscheduled : Scheduled s) :
    Spaces s.reconnectDue.2 := by
  have hat : s.reconnectDue.2.reconnectAtNs = s.reconnectAtNs := by
    obtain ⟨clocks, delay, heq⟩ := s.reconnectDue_snd
    rw [heq]
  rcases s.marks_reconnectDue with ⟨-, hmarks, hdelay⟩ | ⟨t, -, hdue, hmarks, hdelay, hauto⟩
  · exact spaces_pooled hdelay hat (hmarks ▸ Pooled.refl _) hs
  · refine ⟨?_, ?_, ?_⟩
    · rw [hdelay, hmarks, hs.delay]
      exact nextDelay_backoff _
    · rw [hat, hmarks]
      exact hs.due
    · rw [hmarks]
      refine spaced_cons ?_ hs.spaced
      rcases hscheduled hauto hdead with hzero | hsome
      · exact Or.inl hzero
      · exact Or.inr ⟨hsome, fun failed hfailed => Int.le_trans (hs.due failed hfailed) hdue⟩

/-- Open starts the delays anew. -/
theorem spaces_accepted (h : s.readResponse = (.accept, s')) (hs : Spaces s) : Spaces s' := by
  obtain ⟨reads, input, recv, wire, faults, log, heq, -, -⟩ := readResponse_snd h
  rw [if_pos rfl, if_pos rfl] at heq
  rw [heq]
  refine ⟨rfl, ?_, spaced_cons trivial (spaced_cons trivial hs.spaced)⟩
  intro failed hfailed
  have hdue := hs.due failed hfailed
  have hpos := backoff_nonneg (attempts s.marks)
  change failed + 0 ≤ s.reconnectAtNs
  omega

theorem timing_spaces : Timing (· ≠ .upgrading) Orderly fun s => Spaces s ∧ Scheduled s where
  toMarking := marking_spaces
  resumed _ hne _ := hne
  reconnectDue s hdead hs := by
    refine ⟨spaces_reconnectDue hdead hs.1 hs.2, fun hauto _ => ?_⟩
    rcases s.marks_reconnectDue with ⟨-, hmarks, -⟩ | ⟨t, -, -, hmarks, -, hon⟩
    · rw [hmarks]
      refine hs.2 ?_ hdead
      obtain ⟨clocks, delay, heq⟩ := s.reconnectDue_snd
      rw [heq] at hauto
      exact hauto
    · rw [hmarks]
      exact hs.2 hon hdead
  upgrade _ _ hs := ⟨spaces_enter _ hs.1, scheduled_live (by decide)⟩
  opens {s s' s''} hs h hset hC ht := by
    have harm := s''.frame_armPing
    have hopened := (hset _ marking_spaces.toCalling).inv (orderly_past harm.suffix harm.marks hC)
      ⟨spaces_enter _ (spaces_accepted h ht.1), scheduled_live (by decide)⟩
    obtain ⟨clocks, t, heq⟩ := s''.armPing_eq
    rw [heq]
    exact ⟨⟨hopened.1.delay, hopened.1.due, hopened.1.spaced⟩, hopened.2⟩
  keepalive hcb := by
    apply marking_spaces.checks hcb
    · intro s hs
      obtain ⟨clocks, log, heq, -⟩ := s.keepaliveTurn_snd
      obtain ⟨found, s', h⟩ : ∃ found s', s.keepaliveTurn = (found, s') := ⟨_, _, rfl⟩
      rw [h] at heq ⊢
      change s' = _ at heq
      rcases marks_keepaliveTurn h with ⟨-, hmarks⟩ | ⟨t, -, hmarks, -⟩ | ⟨t, answer, -, hmarks⟩
      · rw [heq, hmarks]
        exact ⟨⟨hs.1.delay, hs.1.due, hs.1.spaced⟩, hs.2⟩
      · rw [heq, hmarks]
        exact ⟨spaces_cons hs.1 rfl trivial rfl rfl, hs.2⟩
      · rw [heq, hmarks]
        exact ⟨spaces_cons hs.1 rfl trivial rfl rfl, hs.2⟩
    · exact fun _ _ hs => ⟨⟨hs.1.delay, hs.1.due, hs.1.spaced⟩, hs.2⟩

end WsSession

/-- **Automatic attempts back off.** In every run in which every attempt gets a buffer, the clock does not go back and
the user connects only for the first attempt since the last Open: an automatic attempt that follows `k` attempts
without an Open comes at least `backoff k` after each end of the last one, and the delay is the one of the automatic
attempts since the last Open, at most 30 s. -/
theorem attempts_spaced (cfg : Config) (seed : UInt64) (autoReconnect : Bool) (depth : Nat) (calls : List (Api × Env))
    (horderly : Orderly (WsSession.run depth (fresh cfg seed autoReconnect) calls)) :
    let s := WsSession.run depth (fresh cfg seed autoReconnect) calls
    Spaced s.marks ∧ s.reconnectDelayNs = backoff (redials s.marks + 1) ∧ s.reconnectDelayNs ≤ kReconnectMaxNs := by
  have hnone : Spaced [] := List.forall_mem_singleton.mpr trivial
  have hstart : Spaces (fresh cfg seed autoReconnect) := ⟨rfl, nofun, hnone⟩
  have hend := (WsSession.timing_spaces.runs depth _ calls).inv horderly ⟨hstart, fun _ _ => Or.inl rfl⟩
  exact ⟨hend.1.spaced, hend.1.delay, hend.1.delay ▸ backoff_le_max _⟩

/-- Three attempts that the peer refuses: the third is due a second after the second has failed. -/
theorem unreachable_spaced :
    let s := WsSession.run 0 (fresh plainConfig 1 true)
      [(.act .connect, { connects := [none], clocks := [5] }), (.onReady, { connects := [none], clocks := [6, 7] }),
       (.onReady, { connects := [none], clocks := [8] }),
       (.onReady, { connects := [none], clocks := [1000000007, 1000000008] })]
    attempts s.marks = 3 ∧ Spaced s.marks ∧ s.reconnectDelayNs = backoff (redials s.marks + 1) ∧
      s.reconnectDelayNs ≤ kReconnectMaxNs :=
  ⟨by decide, attempts_spaced plainConfig 1 true 0 _ (by decide)⟩

/-- The second attempt, at 6, finds no buffer: the third follows at 7, before `backoff 2` is over. -/
theorem starved_attempt_not_spaced :
    let s := WsSession.run 0 (fresh plainConfig 1 true)
      [(.act .connect, { connects := [none], clocks := [5] }), (.onReady, { clocks := [6], acquires := [none] }),
       (.onReady, { connects := [none], clocks := [7, 8] })]
    attempts s.marks = 3 ∧ s.marks.filterMap Mark.time = [8, 7, 6, 5] ∧ ¬ Spaced s.marks := by
  decide

end Lepton.Ws
