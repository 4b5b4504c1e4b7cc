import Lepton.TlsStream

/-! When `TlsStream` says that it is waiting. `pump_in` drops the end of the TCP stream in the expectation that
OpenSSL reports it, so a call answers for OpenSSL alone; and `read` looks at the socket only while OpenSSL and
its input BIO hold nothing. -/

namespace Lepton.Tls

variable {new : List Io} {bytes : List UInt8} {s s' : TlsStream}

/-- The bytes begin with a complete TLS record: a header of five bytes that ends in the length of the body. -/
def HasRecord (bytes : List UInt8) : Prop :=
  5 ≤ bytes.length ∧ 5 + ((bytes.getD 3 0).toNat * 256 + (bytes.getD 4 0).toNat) ≤ bytes.length

instance : DecidablePred HasRecord := fun _ => inferInstanceAs (Decidable (_ ∧ _))

/-- A boundary event that ends the call with an error. -/
def Io.Failing : Io → Prop
  | .send _ answer => answer = .error
  | .recv answer => answer = .error
  | .nullUse => True
  | _ => False

instance : DecidablePred Io.Failing
  | .send _ answer => inferInstanceAs (Decidable (answer = .error))
  | .recv answer => inferInstanceAs (Decidable (answer = .error))
  | .nullUse => isTrue trivial
  | .sslNew | .ssl .. | .sslFree _ => isFalse id

/-- Some event ends the call with an error. -/
def Fails (log : List Io) : Prop := ∃ io ∈ log, io.Failing

instance : DecidablePred Fails := fun log => inferInstanceAs (Decidable (∃ io ∈ log, _))

def Io.recv? : Io → Option ReadResult
  | .recv answer => some answer
  | _ => none

/-- The answers of the socket to reads, the latest first. -/
def recvs (log : List Io) : List ReadResult := log.filterMap Io.recv?

/-- The stream with its log begun anew: after a call the log holds the events of that call. -/
def TlsStream.apart (s : TlsStream) : TlsStream := { s with log := [] }

/-! What the outside world is about to do, by the answers it has ready. -/

/-- What `pump_in` takes from the socket. -/
structure Fetched where
  bytes : List UInt8 := []
  /-- The answer at which it stops; none if it stops because the input BIO is full. -/
  last : Option ReadResult := none
  /-- The answers it leaves. -/
  rest : List ReadResult
  deriving DecidableEq, Repr

/-- What `pump_in` takes from the answers of the socket into an input BIO that holds `n` bytes. -/
def fetch : List ReadResult → Nat → Fetched
  | [], n => { last := if 65536 ≤ n then none else some .again, rest := [] }
  | a :: rest, n =>
    if 65536 ≤ n then { rest := a :: rest }
    else
      match a with
      | .again => { last := some .again, rest := rest }
      | .error => { last := some .error, rest := rest }
      | .data bytes =>
        if bytes = [] then { last := some (.data []), rest := rest }
        else
          let f := fetch rest (n + (bytes.take kCipherChunk).length)
          { f with bytes := bytes.take kCipherChunk ++ f.bytes }

namespace TlsStream

/-- What the first pump of `read` takes from the socket: nothing while OpenSSL or its input BIO holds something. -/
def supply (s : TlsStream) : Fetched :=
  if s.pending = 0 ∧ s.waiting = 0 then fetch s.env.recvs 0 else { rest := s.env.recvs }

/-- OpenSSL's next answer. -/
def answer (s : TlsStream) : SslAnswer := s.env.ssl.head?.getD { result := .wantRead, pending := s.pending }

end TlsStream

/-- A handshake with these answers of OpenSSL and the socket, over an input BIO of `n` bytes, comes to an answer of
OpenSSL that ends it: as often as OpenSSL wants to read before, the socket brings something. -/
def GivesUp : List SslAnswer → List ReadResult → Nat → Prop
  | [], _, _ => False
  | a :: ssl, recvs, n =>
    match a.result with
    | .ok => False
    | .wantRead =>
      let f := fetch recvs (n - a.consumed)
      f.bytes ≠ [] ∧ GivesUp ssl f.rest (n - a.consumed + f.bytes.length)
    | .wantWrite => GivesUp ssl recvs (n - a.consumed)
    | .zeroReturn | .error => True

/-- OpenSSL's next answer to a `read` is the end of the stream or an error. -/
def Ends : List SslAnswer → Prop
  | [] => False
  | a :: _ => a.result = .zeroReturn ∨ a.result = .error

instance : DecidablePred Ends
  | [] => isFalse id
  | _ :: _ => inferInstanceAs (Decidable (_ ∨ _))

/-! The pumps. -/

theorem fetch_rest (answers : List ReadResult) (n : Nat) :
    (fetch answers n).rest.length ≤ answers.length ∧
      ((fetch answers n).bytes ≠ [] → (fetch answers n).rest.length < answers.length) := by
  induction answers generalizing n with
  | nil => exact ⟨Nat.le_refl _, fun h => absurd rfl h⟩
  | cons a rest ih =>
    unfold fetch
    split
    · exact ⟨Nat.le_refl _, fun h => absurd rfl h⟩
    · cases a with
      | again | error => exact ⟨Nat.le_succ _, fun h => absurd rfl h⟩
      | data bytes =>
        dsimp only
        split
        · exact ⟨Nat.le_succ _, fun h => absurd rfl h⟩
        · have hrest := (ih (n + (bytes.take kCipherChunk).length)).1
          exact ⟨Nat.le_succ_of_le hrest, fun _ => Nat.lt_succ_of_le hrest⟩

/-- Where there is room, the socket is read. -/
theorem fetch_reads (answers : List ReadResult) : ¬ ((fetch answers 0).bytes = [] ∧ (fetch answers 0).last = none) := by
  unfold fetch
  split
  · exact fun h => absurd h.2 nofun
  · next a rest =>
    cases a with
    | again | error => exact fun h => absurd h.2 nofun
    | data bytes =>
      dsimp only
      rw [if_neg (by decide)]
      split
      · exact fun h => absurd h.2 nofun
      · next hne =>
        refine fun h => absurd h.1 (List.append_ne_nil_of_left_ne_nil ?_ _)
        rw [ne_eq, List.take_eq_nil_iff, not_or]
        exact ⟨nofun, hne⟩

theorem fails_append {old : List Io} : Fails (new ++ old) ↔ Fails new ∨ Fails old := by
  unfold Fails
  simp only [List.mem_append, or_and_right, exists_or]

theorem fails_cons {io : Io} {old : List Io} : Fails (io :: old) ↔ io.Failing ∨ Fails old := by
  unfold Fails
  simp only [List.mem_cons, or_and_right, exists_or, exists_eq_left]

theorem recvs_append (new old : List Io) : recvs (new ++ old) = recvs new ++ recvs old := List.filterMap_append ..

/-- A pump adds the events `new`, and leaves OpenSSL alone. -/
structure Pumped (new : List Io) (s : TlsStream) (ok : Bool) (s' : TlsStream) : Prop where
  log : s'.log = new ++ s.log
  fails : ok = false ↔ Fails new
  ssl : s'.ssl = s.ssl
  pending : s'.pending = s.pending
  tape : s'.env.ssl = s.env.ssl

/-- It brings `f` from the socket into an input BIO that held `bytes`. -/
structure Took (f : Fetched) (bytes : List UInt8) (new : List Io) (s' : TlsStream) : Prop where
  rbio : s'.rbio = some (bytes ++ f.bytes)
  recvs : s'.env.recvs = f.rest
  last : (Tls.recvs new).head? = some .again ↔ f.last = some .again
  /-- The socket is left alone. -/
  idle : Tls.recvs new = [] ↔ f.bytes = [] ∧ f.last = none

/-- Nothing is brought. -/
theorem Took.none {last : Option ReadResult} {rest : List ReadResult}
    (hrbio : s'.rbio = some bytes) (hrecvs : s'.env.recvs = rest) (hlast : (Tls.recvs new).head? = last) :
    Took { last := last, rest := rest } bytes new s' := by
  refine ⟨hrbio.trans (by rw [List.append_nil]), hrecvs, by rw [hlast], ?_⟩
  rw [← hlast, List.head?_eq_none_iff]
  exact (and_iff_right rfl).symm

theorem Pumped.refl (s : TlsStream) : Pumped [] s true s := ⟨rfl, ⟨nofun, nofun⟩, rfl, rfl, rfl⟩

/-- An event that ends a pump. -/
theorem Pumped.last {ok : Bool} (io : Io) (hlog : s'.log = io :: s.log)
    (hfails : ok = false ↔ io.Failing) (hssl : s'.ssl = s.ssl) (hpending : s'.pending = s.pending)
    (htape : s'.env.ssl = s.env.ssl) : Pumped [io] s ok s' := by
  refine ⟨hlog, ?_, hssl, hpending, htape⟩
  rw [hfails, fails_cons]
  exact ⟨Or.inl, fun h => h.resolve_right nofun⟩

/-- An event that does not, before the rest of the pump. -/
theorem Pumped.more {s₁ : TlsStream} {ok : Bool} (h : Pumped new s₁ ok s') (io : Io)
    (hlog : s₁.log = io :: s.log) (hfails : ¬ io.Failing) (hssl : s₁.ssl = s.ssl) (hpending : s₁.pending = s.pending)
    (htape : s₁.env.ssl = s.env.ssl) : Pumped (new ++ [io]) s ok s' := by
  refine ⟨?_, ?_, h.ssl.trans hssl, h.pending.trans hpending, h.tape.trans htape⟩
  · rw [h.log, hlog, List.append_assoc]
    rfl
  · rw [h.fails, fails_append, fails_cons]
    exact ⟨Or.inl, fun hor => hor.resolve_right fun hio => hio.elim hfails nofun⟩

theorem Pumped.not_fails (h : Pumped new s true s') : ¬ Fails new :=
  fun hfails => absurd (h.fails.mpr hfails) nofun

/-- One pump after another. -/
theorem Pumped.trans {s₁ : TlsStream} {new' : List Io} {ok : Bool} (h : Pumped new s true s₁)
    (h' : Pumped new' s₁ ok s') : Pumped (new' ++ new) s ok s' := by
  refine ⟨?_, ?_, h'.ssl.trans h.ssl, h'.pending.trans h.pending, h'.tape.trans h.tape⟩
  · rw [h'.log, h.log, List.append_assoc]
  · rw [h'.fails, fails_append, ← h.fails]
    simp

/-- The pumps do not depend on the history of the handles. -/
theorem Pumped.of_use {present ok : Bool} (h : Pumped new (s.use present) ok s') :
    Pumped new s ok s' :=
  ⟨h.log, h.fails, h.ssl, h.pending, h.tape⟩

namespace TlsStream

/-- A pump that only writes: the input side is as before. -/
structure Unread (s : TlsStream) (new : List Io) (s' : TlsStream) : Prop where
  none : Tls.recvs new = []
  rbio : s'.rbio = s.rbio
  recvs : s'.env.recvs = s.env.recvs

theorem Unread.took (h : Unread s new s')
    (hrbio : s.rbio = some bytes) : Took { rest := s.env.recvs } bytes new s' := by
  refine .none (h.rbio.trans hrbio) h.recvs ?_
  rw [h.none]
  rfl

theorem pumped_pumpOutLoop (answers : List WriteResult) (buf : List UInt8) (s : TlsStream) :
    ∃ new, Pumped new s (pumpOutLoop answers buf s).1 (pumpOutLoop answers buf s).2 ∧
      Unread s new (pumpOutLoop answers buf s).2 := by
  induction answers generalizing buf s with
  | nil => exact ⟨_, Pumped.last (.send s.queued.length .again) rfl ⟨nofun, nofun⟩ rfl rfl rfl, ⟨rfl, rfl, rfl⟩⟩
  | cons a rest ih =>
    cases a with
    | again => exact ⟨_, Pumped.last (.send s.queued.length .again) rfl ⟨nofun, nofun⟩ rfl rfl rfl, ⟨rfl, rfl, rfl⟩⟩
    | error =>
      exact ⟨_, Pumped.last (.send s.queued.length .error) rfl ⟨fun _ => rfl, fun _ => rfl⟩ rfl rfl rfl, ⟨rfl, rfl, rfl⟩⟩
    | accepted n =>
      have hmore {s₁ s' : TlsStream} {new : List Io} {ok : Bool} (h : Pumped new s₁ ok s') (hun : Unread s₁ new s')
          (hlog : s₁.log = .send s.queued.length (.accepted n) :: s.log) (hrbio : s₁.rbio = s.rbio)
          (hssl : s₁.ssl = s.ssl) (hpending : s₁.pending = s.pending) (htape : s₁.env.ssl = s.env.ssl)
          (hrecvs : s₁.env.recvs = s.env.recvs) :
          ∃ new, Pumped new s ok s' ∧ Unread s new s' := by
        refine ⟨_, h.more _ hlog nofun hssl hpending htape, ⟨?_, hun.rbio.trans hrbio, hun.recvs.trans hrecvs⟩⟩
        rw [recvs_append, hun.none]
        rfl
      rw [pumpOutLoop]
      dsimp only
      split
      · obtain ⟨new, hnew, hun⟩ := ih (buf.drop n) _
        exact hmore hnew hun rfl rfl rfl rfl rfl rfl
      · split
        · exact hmore (Pumped.refl _) ⟨rfl, rfl, rfl⟩ rfl rfl rfl rfl rfl rfl
        · obtain ⟨new, hnew, hun⟩ := ih _ _
          exact hmore hnew hun rfl rfl rfl rfl rfl rfl

theorem pumped_pumpOut (s : TlsStream) : ∃ new, Pumped new s s.pumpOut.1 s.pumpOut.2 ∧ Unread s new s.pumpOut.2 := by
  unfold pumpOut
  split
  · exact ⟨[], (Pumped.refl _).of_use, ⟨rfl, rfl, rfl⟩⟩
  · obtain ⟨new, hnew, hun⟩ := pumped_pumpOutLoop s.env.sends (s.queued.take kCipherChunk)
      { s with wbio := s.wbio.map (·.drop kCipherChunk) }
    exact ⟨new, ⟨hnew.log, hnew.fails, hnew.ssl, hnew.pending, hnew.tape⟩, ⟨hun.none, hun.rbio, hun.recvs⟩⟩

theorem waiting_eq (hrbio : s.rbio = some bytes) : s.waiting = bytes.length := by
  rw [waiting, hrbio]
  rfl

/-- What `pump_in` does. -/
theorem pumped_pumpInLoop (answers : List ReadResult) (readAny : Bool)
    (htape : s.env.recvs = answers) (hrbio : s.rbio = some bytes) :
    ∃ new, Pumped new s (pumpInLoop answers readAny s).1 (pumpInLoop answers readAny s).2.2 ∧
      Took (fetch answers bytes.length) bytes new (pumpInLoop answers readAny s).2.2 ∧
      ((pumpInLoop answers readAny s).2.1 = true ↔ readAny = true ∨ (fetch answers bytes.length).bytes ≠ []) := by
  induction answers generalizing readAny s bytes with
  | nil =>
    rw [pumpInLoop, fetch, waiting_eq hrbio]
    split
    · exact ⟨[], Pumped.refl s, .none hrbio htape rfl, by simp⟩
    · exact ⟨_, Pumped.last (.recv .again) rfl ⟨nofun, nofun⟩ rfl rfl rfl, .none hrbio htape rfl, by simp⟩
  | cons a rest ih =>
    rw [pumpInLoop, waiting_eq hrbio]
    unfold fetch
    split
    · exact ⟨[], Pumped.refl s, .none hrbio htape rfl, by simp⟩
    · cases a with
      | again =>
        exact ⟨_, Pumped.last (.recv .again) rfl ⟨nofun, nofun⟩ rfl rfl rfl,
          .none hrbio rfl rfl, by simp⟩
      | error =>
        exact ⟨_, Pumped.last (.recv .error) rfl ⟨fun _ => rfl, fun _ => rfl⟩ rfl rfl rfl,
          .none hrbio rfl rfl, by simp⟩
      | data chunk =>
        dsimp only
        split
        · next hnil =>
          rw [hnil]
          exact ⟨_, Pumped.last (.recv (.data [])) rfl ⟨nofun, nofun⟩ rfl rfl rfl, .none hrbio rfl rfl, by simp⟩
        · next hchunk =>
          have hrbio₁ : s.rbio.map (· ++ chunk.take kCipherChunk) = some (bytes ++ chunk.take kCipherChunk) := by
            rw [hrbio]
            rfl
          obtain ⟨new, hnew, htook, hany⟩ := @ih _ { note s (.recv (.data chunk)) with
            env := { s.env with recvs := rest }, rbio := s.rbio.map (· ++ chunk.take kCipherChunk) } true rfl hrbio₁
          rw [List.length_append] at htook hany
          have hne : chunk.take kCipherChunk ++ (fetch rest (bytes.length + (chunk.take kCipherChunk).length)).bytes ≠ [] := by
            refine List.append_ne_nil_of_left_ne_nil ?_ _
            rw [ne_eq, List.take_eq_nil_iff, not_or]
            exact ⟨nofun, hchunk⟩
          refine ⟨_, hnew.more (.recv (.data chunk)) rfl nofun rfl rfl rfl, ⟨?_, htook.recvs, ?_, ?_⟩, ?_⟩
          · exact htook.rbio.trans (congrArg some (List.append_assoc ..))
          · -- the data stands before what ends the pump
            refine Iff.trans ?_ htook.last
            rw [recvs_append]
            cases recvs new with
            | nil => exact ⟨nofun, nofun⟩
            | cons => exact Iff.rfl
          · rw [recvs_append]
            exact ⟨fun h => absurd h (List.append_ne_nil_of_right_ne_nil _ nofun), fun h => absurd h.1 hne⟩
          · exact ⟨fun _ => Or.inr hne, fun _ => hany.mpr (Or.inl rfl)⟩

theorem pumped_pumpIn (hrbio : s.rbio = some bytes) :
    ∃ new, Pumped new s s.pumpIn.1 s.pumpIn.2.2 ∧ Took (fetch s.env.recvs bytes.length) bytes new s.pumpIn.2.2 ∧
      (s.pumpIn.2.1 = true ↔ (fetch s.env.recvs bytes.length).bytes ≠ []) := by
  obtain ⟨new, hnew, htook, hany⟩ := pumped_pumpInLoop (s := s.use s.rbio.isSome) s.env.recvs false rfl hrbio
  exact ⟨new, hnew.of_use, htook, hany.trans ⟨fun h => h.resolve_left nofun, Or.inr⟩⟩

/-- What `pump` does. -/
theorem pumped_pump (hrbio : s.rbio = some bytes) :
    ∃ new, Pumped new s s.pump.1 s.pump.2 ∧
      (s.pump.1 = true → Took (fetch s.env.recvs bytes.length) bytes new s.pump.2) := by
  obtain ⟨sent, hsent, hun⟩ := s.pumped_pumpOut
  unfold pump
  dsimp only
  split
  · next hok =>
    rw [hok] at hsent
    obtain ⟨read, hread, htook, -⟩ := pumped_pumpIn (hun.rbio.trans hrbio)
    rw [hun.recvs] at htook
    have hrecvs : recvs (read ++ sent) = recvs read := by rw [recvs_append, hun.none, List.append_nil]
    exact ⟨_, hsent.trans hread, fun _ => ⟨htook.rbio, htook.recvs, hrecvs ▸ htook.last, hrecvs ▸ htook.idle⟩⟩
  · next hok =>
    rw [Bool.not_eq_true] at hok
    rw [hok] at hsent
    exact ⟨sent, hsent, nofun⟩

/-- What the pump of `read` does. -/
theorem pumped_readPump (hrbio : s.rbio = some bytes) :
    ∃ new, Pumped new s s.readPump.1 s.readPump.2 ∧ (s.readPump.1 = true → Took s.supply bytes new s.readPump.2) := by
  unfold readPump supply
  dsimp only
  by_cases hempty : s.pending = 0 ∧ s.waiting = 0
  · rw [if_pos hempty, if_pos (show (s.use s.ssl).pending = 0 ∧ (s.use s.ssl).waiting = 0 from hempty)]
    obtain ⟨new, hnew, htook⟩ := pumped_pump (s := (s.use s.ssl).use (s.use s.ssl).rbio.isSome) hrbio
    rw [← waiting_eq hrbio, hempty.2] at htook
    exact ⟨new, hnew.of_use.of_use, htook⟩
  · rw [if_neg hempty, if_neg (show ¬ ((s.use s.ssl).pending = 0 ∧ (s.use s.ssl).waiting = 0) from hempty)]
    obtain ⟨new, hnew, hun⟩ := (s.use s.ssl).pumped_pumpOut
    exact ⟨new, hnew.of_use, fun _ => hun.took hrbio⟩

/-- An OpenSSL operation on a live handle. -/
structure Called (s s' : TlsStream) : Prop where
  ssl : s'.ssl = true
  log : s'.log = .ssl (s'.rbio.getD []) s.answer :: s.log
  pending : s'.pending = s.answer.pending
  rbio : s'.rbio = s.rbio.map (·.drop s.answer.consumed)
  recvs : s'.env.recvs = s.env.recvs
  tape : s'.env.ssl = s.env.ssl.tail

theorem sslCall_live (hssl : s.ssl = true) : s.sslCall.1 = s.answer ∧ Called s s.sslCall.2 := by
  unfold sslCall
  rw [if_pos hssl]
  split
  · next htape =>
    have hanswer : s.answer = { result := .wantRead, pending := s.pending } := by
      rw [answer, htape]
      rfl
    refine ⟨hanswer.symm, hssl, ?_, ?_, ?_, rfl, ?_⟩
    · rw [hanswer]
      rfl
    · rw [hanswer]
      rfl
    · rw [hanswer]
      exact (Option.map_id' (x := s.rbio)).symm
    · change s.env.ssl = _
      rw [htape]
      rfl
  · next a rest htape =>
    have hanswer : s.answer = a := by
      rw [answer, htape]
      rfl
    refine ⟨hanswer.symm, hssl, ?_, ?_, ?_, rfl, ?_⟩
    · rw [hanswer]
      rfl
    · rw [hanswer]
    · rw [hanswer]
    · rw [htape]
      rfl

theorem log_fail (s : TlsStream) : ∃ new, s.fail.log = new ++ s.log ∧ ¬ Fails new := by
  unfold fail sslFree
  split
  · refine ⟨[.sslFree s.queued.length], rfl, fun hfails => ?_⟩
    exact (fails_cons.mp hfails).elim id nofun
  · exact ⟨[], rfl, nofun⟩

end TlsStream

/-- A call with the events `log` has failed if a call of the socket has, and else just if `cause` holds. -/
def FailsBy (log : List Io) (failed cause : Prop) : Prop := (Fails log → failed) ∧ (¬ Fails log → (failed ↔ cause))

theorem FailsBy.fails {log : List Io} {failed cause : Prop} (hlog : Fails log) (h : failed) : FailsBy log failed cause :=
  ⟨fun _ => h, fun hcalm => absurd hlog hcalm⟩

theorem FailsBy.calm {log : List Io} {failed cause : Prop} (hlog : ¬ Fails log) (h : failed ↔ cause) :
    FailsBy log failed cause := ⟨fun hfails => absurd hfails hlog, fun _ => h⟩

theorem FailsBy.congr {log : List Io} {failed cause cause' : Prop} (h : FailsBy log failed cause) (hcause : cause ↔ cause') :
    FailsBy log failed cause' := ⟨h.1, fun hcalm => (h.2 hcalm).trans hcause⟩

/-- Events that do not fail come before. -/
theorem FailsBy.append {old : List Io} {failed cause : Prop} (h : FailsBy new failed cause) (hold : ¬ Fails old) :
    FailsBy (new ++ old) failed cause := by
  rw [FailsBy, fails_append, or_iff_left hold]
  exact h

/-- One more answer of OpenSSL. -/
theorem givesUp_iff (s : TlsStream) (recvs : List ReadResult) (n : Nat) :
    GivesUp s.env.ssl recvs n ↔
      match s.answer.result with
      | .ok => False
      | .wantRead =>
        let f := fetch recvs (n - s.answer.consumed)
        f.bytes ≠ [] ∧ GivesUp s.env.ssl.tail f.rest (n - s.answer.consumed + f.bytes.length)
      | .wantWrite => GivesUp s.env.ssl.tail recvs (n - s.answer.consumed)
      | .zeroReturn | .error => True := by
  unfold TlsStream.answer
  cases s.env.ssl with
  | nil => exact ⟨False.elim, fun h => h.2⟩
  | cons a rest => exact Iff.rfl

namespace TlsStream

/-- **When the handshake loop fails.** Every turn that goes round takes an answer from a tape, so the fuel is never
used up. -/
theorem failsBy_handshakeLoop (fuel : Nat) (hssl : s.ssl = true)
    (hrbio : s.rbio = some bytes) (hfuel : s.env.ssl.length + s.env.recvs.length < fuel) :
    ∃ new, (handshakeLoop fuel s).2.log = new ++ s.log ∧
      FailsBy new ((handshakeLoop fuel s).1 = .failed ∨ (handshakeLoop fuel s).1 = .closed)
        (GivesUp s.env.ssl s.env.recvs bytes.length) := by
  induction fuel generalizing s bytes with
  | zero => exact absurd hfuel (Nat.not_lt_zero _)
  | succ fuel ih =>
    obtain ⟨hanswer, hcalled⟩ := sslCall_live hssl
    have hgives := givesUp_iff s s.env.recvs bytes.length
    rw [handshakeLoop]
    generalize s.sslCall = call at hanswer hcalled ⊢
    obtain ⟨a, s₁⟩ := call
    obtain rfl : a = s.answer := hanswer
    dsimp only at hcalled ⊢
    have hanswered : ¬ Fails [.ssl (s₁.rbio.getD []) s.answer] := fun h => (fails_cons.mp h).elim id nofun
    have hsince {new : List Io} {s' : TlsStream} (hlog : s'.log = new ++ s₁.log) :
        s'.log = new ++ [.ssl (s₁.rbio.getD []) s.answer] ++ s.log := by
      rw [hlog, hcalled.log, List.append_assoc]
      rfl
    have hrbio₁ : s₁.rbio = some (bytes.drop s.answer.consumed) := by
      rw [hcalled.rbio, hrbio]
      rfl
    have hlength : (bytes.drop s.answer.consumed).length = bytes.length - s.answer.consumed := List.length_drop
    split
    · next hok =>
      rw [hok] at hgives
      obtain ⟨new, hnew, -⟩ := pumped_pump hrbio₁
      split
      · next hpump =>
        rw [hpump] at hnew
        refine ⟨_, hsince hnew.log, FailsBy.append (.calm hnew.not_fails ?_) hanswered⟩
        rw [hgives]
        exact ⟨fun h => h.elim nofun nofun, False.elim⟩
      · next hpump =>
        have hfails := hnew.fails.mp (Bool.not_eq_true _ ▸ hpump)
        exact ⟨_, hsince hnew.log, FailsBy.append (.fails hfails (Or.inl rfl)) hanswered⟩
    · next hwant =>
      rw [hwant] at hgives
      obtain ⟨read, hread, htook, hany⟩ := pumped_pumpIn hrbio₁
      rw [hcalled.recvs, hlength] at htook hany
      split
      · next hin =>
        exact ⟨_, hsince hread.log, FailsBy.append (.fails (hread.fails.mp hin) (Or.inl rfl)) hanswered⟩
      · next hin =>
        rw [Bool.not_eq_false] at hin
        rw [hin] at hread
        obtain ⟨sent, hsent, hun⟩ := pumped_pumpOut s₁.pumpIn.2.2
        have hboth := hread.trans hsent
        split
        · next hout =>
          exact ⟨_, hsince hboth.log, FailsBy.append (.fails (hboth.fails.mp hout) (Or.inl rfl)) hanswered⟩
        · next hout =>
          have hcalm : ¬ Fails (sent ++ read) := fun h => hout (hboth.fails.mpr h)
          split
          · -- the socket has brought something, and the loop goes round
            next hsome =>
              have htape := hboth.tape.trans hcalled.tape
              have hrecvs := hun.recvs.trans htook.recvs
              have hless := (fetch_rest s.env.recvs (bytes.length - s.answer.consumed)).2 (hany.mp hsome)
              have htail : s.env.ssl.tail.length ≤ s.env.ssl.length := by rw [List.length_tail]; exact Nat.sub_le _ _
              obtain ⟨new, hnew, hfails⟩ := ih (hboth.ssl.trans hcalled.ssl) (hun.rbio.trans htook.rbio)
                (by rw [htape, hrecvs]; omega)
              rw [htape, hrecvs, List.length_append, hlength] at hfails
              refine ⟨new ++ (sent ++ read ++ [.ssl (s₁.rbio.getD []) s.answer]), ?_, ?_⟩
              · rw [hnew, hsince hboth.log, ← List.append_assoc]
              · refine FailsBy.append (hfails.congr ?_) fun h => (fails_append.mp h).elim hcalm hanswered
                exact (hgives.trans (and_iff_right (hany.mp hsome))).symm
          · next hnone =>
            refine ⟨_, hsince hboth.log, FailsBy.append (.calm hcalm ?_) hanswered⟩
            rw [hgives]
            exact ⟨fun h => h.elim nofun nofun, fun h => absurd (hany.mpr h.1) hnone⟩
    · next hwant =>
      rw [hwant] at hgives
      obtain ⟨sent, hsent, hun⟩ := s₁.pumped_pumpOut
      split
      · next hout =>
        exact ⟨_, hsince hsent.log, FailsBy.append (.fails (hsent.fails.mp hout) (Or.inl rfl)) hanswered⟩
      · next hout =>
        have hcalm : ¬ Fails sent := fun h => hout (hsent.fails.mpr h)
        have htape := hsent.tape.trans hcalled.tape
        have hrecvs := hun.recvs.trans hcalled.recvs
        -- only an answer from the tape wants to write
        have htail : s.env.ssl.tail.length < s.env.ssl.length := by
          unfold answer at hwant
          cases hssl : s.env.ssl with
          | nil => rw [hssl] at hwant; cases hwant
          | cons => exact Nat.lt_succ_self _
        obtain ⟨new, hnew, hfails⟩ := ih (hsent.ssl.trans hcalled.ssl) (hun.rbio.trans hrbio₁)
          (by rw [htape, hrecvs]; omega)
        rw [htape, hrecvs, hlength] at hfails
        refine ⟨new ++ (sent ++ [.ssl (s₁.rbio.getD []) s.answer]), ?_, ?_⟩
        · rw [hnew, hsince hsent.log, ← List.append_assoc]
        · exact FailsBy.append (hfails.congr hgives.symm) fun h => (fails_append.mp h).elim hcalm hanswered
    · next hok hread hwrite =>
      obtain ⟨new, hnew, hcalm⟩ := s₁.log_fail
      refine ⟨_, hsince hnew, FailsBy.append (.calm hcalm ⟨fun _ => ?_, fun _ => Or.inl rfl⟩) hanswered⟩
      rw [hgives]
      cases hresult : s.answer.result with
      | ok => exact absurd hresult hok
      | wantRead => exact absurd hresult hread
      | wantWrite => exact absurd hresult hwrite
      | zeroReturn | error => trivial

theorem readAgain_cases (hrbio : s.rbio = some bytes) :
    ∃ new, s.readAgain.2.log = new ++ s.log ∧
      ((s.readAgain.1 = .error ∧ Fails new) ∨
        s.readAgain.1 = .again ∧ Pumped new s true s.readAgain.2 ∧ Took s.supply bytes new s.readAgain.2) := by
  obtain ⟨new, hnew, htook⟩ := pumped_readPump hrbio
  unfold readAgain
  dsimp only
  split
  · next hfailed =>
    obtain ⟨freed, hfreed, -⟩ := s.readPump.2.log_fail
    refine ⟨freed ++ new, ?_, Or.inl ⟨rfl, fails_append.mpr (Or.inr (hnew.fails.mp hfailed))⟩⟩
    rw [hfreed, hnew.log, List.append_assoc]
  · next hok =>
    rw [Bool.not_eq_false] at hok
    rw [hok] at hnew
    exact ⟨new, hnew.log, Or.inr ⟨rfl, hnew, htook hok⟩⟩

/-- What OpenSSL's next answer leaves in the input BIO during a `read`. -/
def left (s : TlsStream) : List UInt8 := (s.rbio.getD [] ++ s.supply.bytes).drop s.answer.consumed

/-- The events of a `read` that reports waiting after one answer of OpenSSL: a pump, the answer, a pump. -/
structure Waited (s : TlsStream) (new : List Io) (s' : TlsStream) where
  before : List Io
  after : List Io
  given : TlsStream
  rest : TlsStream
  took : Took s.supply (s.rbio.getD []) before given
  called : Called given rest
  answer : given.answer = s.answer
  pumped : Pumped after rest true s'
  took' : Took rest.supply s.left after s'
  events : new = after ++ .ssl s.left s.answer :: before

/-- After a want of OpenSSL, `read` fails with the last pump or reports waiting. -/
theorem readAgain_failsBy {before : List Io} (hrbio : s.rbio = some bytes)
    (hbefore : ¬ Fails before) {cause : Prop} (hcause : ¬ cause) :
    ∃ new, s.readAgain.2.log = new ++ s.log ∧
      FailsBy (new ++ before) (s.readAgain.1 = .data [] ∨ s.readAgain.1 = .error) cause ∧
      (s.readAgain.1 = .again → Pumped new s true s.readAgain.2 ∧ Took s.supply bytes new s.readAgain.2) := by
  obtain ⟨new, hlog, ⟨hr, hfails⟩ | ⟨hr, hpumped, htook⟩⟩ := readAgain_cases hrbio
  · refine ⟨new, hlog, FailsBy.append (.fails hfails (Or.inr hr)) hbefore, fun h => ?_⟩
    exact absurd (hr.symm.trans h) nofun
  · refine ⟨new, hlog, FailsBy.append (.calm hpumped.not_fails ?_) hbefore, fun _ => ⟨hpumped, htook⟩⟩
    rw [hr]
    exact ⟨fun h => h.elim nofun nofun, fun h => absurd h hcause⟩

theorem ends_iff (s : TlsStream) : Ends s.env.ssl ↔ s.answer.result = .zeroReturn ∨ s.answer.result = .error := by
  unfold answer
  cases s.env.ssl with
  | nil => exact ⟨False.elim, fun h => h.elim nofun nofun⟩
  | cons => exact Iff.rfl

/-- Only an answer from the tape is a success. -/
theorem answer_mem (h : s.answer.result = .ok) : s.answer ∈ s.env.ssl := by
  unfold answer at h ⊢
  cases htape : s.env.ssl with
  | nil => rw [htape] at h; cases h
  | cons => exact List.mem_cons_self

/-- **When `read` reports an end or an error.** A second answer of OpenSSL is asked for only when it has plaintext left
although it wants to read, and counts only if it is data. -/
theorem read_failsBy (hphase : s.phase = .established) (hssl : s.ssl = true)
    (hrbio : s.rbio = some bytes) :
    ∃ new, s.read.2.log = new ++ s.log ∧
      ((∀ a ∈ s.env.ssl, a.result = .ok → a.plain ≠ []) →
        FailsBy new (s.read.1 = .data [] ∨ s.read.1 = .error) (Ends s.env.ssl)) ∧
      (s.read.1 = .again → (s.answer.result = .wantRead → s.answer.pending = 0) → Nonempty (Waited s new s.read.2)) := by
  obtain ⟨before, hbefore, htook⟩ := pumped_readPump hrbio
  have hends := s.ends_iff
  unfold read
  rw [if_neg (not_not.mpr hphase)]
  obtain ⟨ok, s₁, hpump⟩ : ∃ ok s₁, s.readPump = (ok, s₁) := ⟨_, _, rfl⟩
  rw [hpump] at hbefore htook ⊢
  dsimp only at hbefore htook ⊢
  split
  · next hfailed =>
    obtain ⟨freed, hfreed, -⟩ := s₁.log_fail
    refine ⟨freed ++ before, ?_, fun _ => ?_, nofun⟩
    · rw [hfreed, hbefore.log, List.append_assoc]
    · exact .fails (fails_append.mpr (Or.inr (hbefore.fails.mp hfailed))) (Or.inr rfl)
  · next hok =>
    rw [Bool.not_eq_false] at hok
    rw [hok] at hbefore
    replace htook := htook hok
    have hanswer₁ : s₁.answer = s.answer := by
      rw [answer, answer, hbefore.tape, hbefore.pending]
    obtain ⟨hanswer, hcalled⟩ := sslCall_live (hbefore.ssl.trans hssl)
    generalize s₁.sslCall = call at hanswer hcalled ⊢
    obtain ⟨a, s₂⟩ := call
    obtain rfl : a = s.answer := hanswer.trans hanswer₁
    dsimp only at hcalled ⊢
    have hrbio₂ : s₂.rbio = some s.left := by
      rw [hcalled.rbio, htook.rbio, left, hrbio, hanswer₁]
      rfl
    have hlog₂ : s₂.log = .ssl s.left s.answer :: before ++ s.log := by
      rw [hcalled.log, hrbio₂, hbefore.log, hanswer₁]
      rfl
    have hcalm : ¬ Fails (.ssl s.left s.answer :: before) := fun h => (fails_cons.mp h).elim id hbefore.not_fails
    have hwaits (hwant : ¬ Ends s.env.ssl) :
        ∃ new, s₂.readAgain.2.log = new ++ s.log ∧
          FailsBy new (s₂.readAgain.1 = .data [] ∨ s₂.readAgain.1 = .error) (Ends s.env.ssl) ∧
          (s₂.readAgain.1 = .again → Nonempty (Waited s new s₂.readAgain.2)) := by
      obtain ⟨after, hlog, hfails, hagain⟩ := readAgain_failsBy hrbio₂ hcalm hwant
      refine ⟨_, ?_, hfails, fun h => ?_⟩
      · rw [hlog, hlog₂, List.append_assoc]
      · obtain ⟨hpumped, htook'⟩ := hagain h
        exact ⟨before, after, s₁, s₂, by rw [hrbio]; exact htook, hcalled, hanswer₁, hpumped, htook', rfl⟩
    split
    · next hresult =>
      refine ⟨_, hlog₂, fun hplain => .calm hcalm ?_, nofun⟩
      rw [hends, hresult]
      refine ⟨fun h => ?_, fun h => h.elim nofun nofun⟩
      have hne := hplain _ (answer_mem hresult) hresult
      exact h.elim (fun h => absurd (ReadResult.data.inj h) hne) nofun
    · next hresult =>
      have hwant : ¬ Ends s.env.ssl := by
        rw [hends, hresult]
        exact fun h => h.elim nofun nofun
      split
      · next hpending =>
        have hpositive : s.answer.pending ≠ 0 := by
          rw [← hanswer₁, ← hcalled.pending]
          exact Nat.ne_of_gt hpending
        obtain ⟨hanswer', hcalled'⟩ := sslCall_live hcalled.ssl
        generalize s₂.sslCall = call' at hanswer' hcalled' ⊢
        obtain ⟨b, s₃⟩ := call'
        obtain rfl : b = s₂.answer := hanswer'
        dsimp only at hcalled' ⊢
        have hlog₃ : s₃.log = .ssl (s₃.rbio.getD []) s₂.answer :: (.ssl s.left s.answer :: before) ++ s.log := by
          rw [hcalled'.log, hlog₂]
          rfl
        have hcalm' : ¬ Fails (.ssl (s₃.rbio.getD []) s₂.answer :: (.ssl s.left s.answer :: before)) :=
          fun h => (fails_cons.mp h).elim id hcalm
        split
        · next hok' =>
          refine ⟨_, hlog₃, fun hplain => .calm hcalm' ⟨fun h => ?_, fun h => absurd h hwant⟩, nofun⟩
          have hmem : s₂.answer ∈ s.env.ssl := by
            have hmem := answer_mem hok'
            rw [hcalled.tape, hbefore.tape] at hmem
            exact List.mem_of_mem_tail hmem
          exact h.elim (fun h => absurd (ReadResult.data.inj h) (hplain _ hmem hok')) nofun
        · have hrbio₃ : s₃.rbio = some (s.left.drop s₂.answer.consumed) := by
            rw [hcalled'.rbio, hrbio₂]
            rfl
          obtain ⟨after, hlog, hfails, -⟩ := readAgain_failsBy hrbio₃ hcalm' hwant
          refine ⟨_, ?_, fun _ => hfails, fun _ hhonest => absurd (hhonest hresult) hpositive⟩
          rw [hlog, hlog₃, List.append_assoc]
      · obtain ⟨new, hlog, hfails, hagain⟩ := hwaits hwant
        exact ⟨new, hlog, fun _ => hfails, fun h _ => hagain h⟩
    · next hresult =>
      have hwant : ¬ Ends s.env.ssl := by
        rw [hends, hresult]
        exact fun h => h.elim nofun nofun
      obtain ⟨new, hlog, hfails, hagain⟩ := hwaits hwant
      exact ⟨new, hlog, fun _ => hfails, fun h _ => hagain h⟩
    · next hresult =>
      exact ⟨_, hlog₂, fun _ => .calm hcalm ⟨fun _ => hends.mpr (Or.inl hresult), fun _ => Or.inl rfl⟩, nofun⟩
    · next hresult =>
      exact ⟨_, hlog₂, fun _ => .calm hcalm ⟨fun _ => hends.mpr (Or.inr hresult), fun _ => Or.inr rfl⟩, nofun⟩

theorem sslCall_null (hssl : s.ssl = false) :
    s.sslCall.1.result = .error ∧ s.sslCall.2.log = .nullUse :: s.log := by
  rw [sslCall, hssl]
  exact ⟨rfl, rfl⟩

theorem read_null (hphase : s.phase = .established) (hssl : s.ssl = false)
    (hrbio : s.rbio = some bytes) : ∃ new, s.read.2.log = new ++ s.log ∧ Fails new ∧ s.read.1 = .error := by
  obtain ⟨before, hbefore, -⟩ := pumped_readPump hrbio
  unfold read
  rw [if_neg (not_not.mpr hphase)]
  dsimp only
  split
  · next hfailed =>
    obtain ⟨freed, hfreed, -⟩ := s.readPump.2.log_fail
    refine ⟨freed ++ before, ?_, fails_append.mpr (Or.inr (hbefore.fails.mp hfailed)), rfl⟩
    rw [hfreed, hbefore.log, List.append_assoc]
  · obtain ⟨herror, hlog⟩ := sslCall_null (hbefore.ssl.trans hssl)
    rw [herror]
    refine ⟨.nullUse :: before, ?_, fails_cons.mpr (Or.inl trivial), rfl⟩
    rw [hlog, hbefore.log]
    rfl

theorem handshake_null (hssl : s.ssl = false) :
    ∃ new, s.handshake.2.log = new ++ s.log ∧ Fails new ∧ s.handshake.1 = .failed := by
  obtain ⟨herror, hlog⟩ := sslCall_null hssl
  obtain ⟨new, hnew, -⟩ := s.sslCall.2.log_fail
  rw [handshake, handshakeLoop]
  dsimp only
  rw [herror]
  refine ⟨new ++ [.nullUse], ?_, ⟨.nullUse, List.mem_append_right _ List.mem_cons_self, trivial⟩, rfl⟩
  rw [hnew, hlog, List.append_assoc]
  rfl

end TlsStream

/-- **When the end of the TCP stream is surfaced.** A call that has seen it reports an error if a call of the socket
failed. Else `read` reports an end or an error exactly when OpenSSL's next answer is one; and `poll_open` during the
handshake reports a failure exactly when OpenSSL's answers come to one before OpenSSL is left wanting to read. -/
theorem eof_surfaces_iff (s : TlsStream) (bytes : List UInt8) (hrbio : s.rbio = some bytes)
    (hplain : ∀ a ∈ s.env.ssl, a.result = .ok → a.plain ≠ []) :
    (s.phase = .established →
      let c := s.apart.read
      .recv (.data []) ∈ c.2.log → ¬ HasRecord (c.2.rbio.getD []) →
        FailsBy c.2.log (c.1 = .data [] ∨ c.1 = .error) (Ends s.env.ssl)) ∧
    (s.phase = .handshaking ∨ s.phase = .established →
      let c := s.apart.pollOpen
      .recv (.data []) ∈ c.2.log → ¬ HasRecord (c.2.rbio.getD []) →
        FailsBy c.2.log (c.1 = .failed ∨ c.1 = .closed) (GivesUp s.env.ssl s.env.recvs bytes.length)) := by
  constructor
  · intro hphase c _ _
    cases hssl : s.ssl with
    | true =>
      obtain ⟨new, hlog, hfails, -⟩ := TlsStream.read_failsBy (s := s.apart) hphase hssl hrbio
      rw [show c.2.log = new from hlog.trans (List.append_nil new)]
      exact hfails hplain
    | false =>
      obtain ⟨new, hlog, hfails, hr⟩ := TlsStream.read_null (s := s.apart) hphase hssl hrbio
      rw [show c.2.log = new from hlog.trans (List.append_nil new)]
      exact .fails hfails (Or.inr hr)
  · intro hphase c heof _
    rcases hphase with hphase | hphase
    · have hc : c = s.apart.handshake := by
        change s.apart.pollOpen = _
        rw [TlsStream.pollOpen, show s.apart.phase = .handshaking from hphase]
      rw [hc]
      cases hssl : s.ssl with
      | true =>
        obtain ⟨new, hlog, hfails⟩ := TlsStream.failsBy_handshakeLoop _ (s := s.apart) hssl hrbio (Nat.lt_succ_self _)
        rw [show s.apart.handshake.2.log = new from hlog.trans (List.append_nil new)]
        exact hfails
      | false =>
        obtain ⟨new, hlog, hfails, hr⟩ := TlsStream.handshake_null (s := s.apart) hssl
        rw [show s.apart.handshake.2.log = new from hlog.trans (List.append_nil new)]
        exact .fails hfails (Or.inl hr)
    · have hc : c = (.opened, s.apart) := by
        change s.apart.pollOpen = _
        rw [TlsStream.pollOpen, show s.apart.phase = .established from hphase]
      rw [hc] at heof
      cases heof

/-- A stream after its handshake, about to be called with the answers `env`. -/
def established (env : Env) : TlsStream :=
  { run dialing [(.pollOpen, { opens := [.opened], ssl := [{ result := .ok }] })] with env := env }

/-- A stream in its handshake, about to be called with the answers `env`. -/
def handshaking (env : Env) : TlsStream := { run dialing [(.pollOpen, { opens := [.opened] })] with env := env }

/-- A close_notify before the end of the TCP stream. -/
def orderlyEnd : Env :=
  { recvs := [.data [21, 3, 3, 0, 2, 1, 0], .data []], ssl := [{ result := .zeroReturn, consumed := 7 }] }

/-- A fatal alert before the end of the TCP stream, during the handshake. -/
def alertEnd : Env :=
  { recvs := [.data [21, 3, 3, 0, 2, 2, 40], .data []],
    ssl := [{ result := .wantRead }, { result := .error, consumed := 7 }] }

theorem ends_surface :
    let read := (established orderlyEnd).apart.read
    let opening := (handshaking alertEnd).apart.pollOpen
    (read.1 = .data [] ∨ read.1 = .error) ∧ (opening.1 = .failed ∨ opening.1 = .closed) := by
  have hread := (eof_surfaces_iff (established orderlyEnd) [] (by decide) (by decide)).1 (by decide) (by decide) (by decide)
  have hopen := (eof_surfaces_iff (handshaking alertEnd) [] (by decide) (by decide)).2 (by decide) (by decide) (by decide)
  refine ⟨(hread.2 (by decide)).mpr (by decide), (hopen.2 (by decide)).mpr ⟨by decide, trivial⟩⟩

/-- The peer closes the TCP connection without a close_notify: the stream goes on waiting, before and after the
handshake. -/
theorem abruptEnd_not_surfaced :
    let read := (established { recvs := [.data [], .data []] }).apart.read
    let opening := (handshaking { recvs := [.data []] }).apart.pollOpen
    (read.1 = .again ∧ .recv (.data []) ∈ read.2.log ∧ ¬ HasRecord (read.2.rbio.getD [])) ∧
      opening.1 = .connecting ∧ .recv (.data []) ∈ opening.2.log ∧ ¬ HasRecord (opening.2.rbio.getD []) := by
  decide

/-- OpenSSL wants to read only when no complete record and no plaintext is left. -/
def Honest (s : TlsStream) : Prop := s.answer.result = .wantRead → s.answer.pending = 0 ∧ ¬ HasRecord s.left

instance : DecidablePred Honest := fun s =>
  inferInstanceAs (Decidable (s.answer.result = .wantRead → s.answer.pending = 0 ∧ ¬ HasRecord s.left))

/-- Nothing received is left: the last read of the socket found it empty, and neither the input BIO nor OpenSSL
holds anything to return. -/
structure Emptied (log : List Io) (s : TlsStream) : Prop where
  last : (recvs log).head? = some .again
  rbio : ¬ HasRecord (s.rbio.getD [])
  pending : s.pending = 0

/-- What the outside world must be about to do for a `read` of `s` to be drained. If OpenSSL's answer uses up the
input BIO, the socket runs empty after it without completing a record. If it leaves an incomplete record, the socket
is read before it, as nothing is left over from earlier calls, and runs empty. -/
def Timely (s : TlsStream) : Prop :=
  s.answer.pending = 0 ∧
    ((s.left = [] ∧ (fetch s.supply.rest 0).last = some .again ∧ ¬ HasRecord (fetch s.supply.rest 0).bytes) ∨
      (s.left ≠ [] ∧ ¬ HasRecord s.left ∧ s.supply.last = some .again))

instance : DecidablePred Timely := fun _ => inferInstanceAs (Decidable (_ ∧ (_ ∨ _)))

/-- A `read` that waited is drained exactly when the outside world was timely. -/
theorem TlsStream.Waited.emptied_iff {log : List Io} (w : Waited s log s') :
    Emptied log s' ↔ Timely s := by
  obtain ⟨before, after, given, rest, htook, hcalled, hanswer, hpumped, htook', rfl⟩ := w
  have hpending : rest.pending = s.answer.pending := hcalled.pending.trans (congrArg _ hanswer)
  have hemptied : Emptied (after ++ .ssl s.left s.answer :: before) s' ↔
      (recvs after ++ recvs before).head? = some .again ∧ ¬ HasRecord (s.left ++ rest.supply.bytes) ∧
        s.answer.pending = 0 := by
    have hrecvs : recvs (after ++ .ssl s.left s.answer :: before) = recvs after ++ recvs before := recvs_append ..
    have hrbio : s'.rbio.getD [] = s.left ++ rest.supply.bytes := by
      rw [htook'.rbio]
      rfl
    rw [← hpending, ← hpumped.pending, ← hrbio, ← hrecvs]
    exact ⟨fun h => ⟨h.last, h.rbio, h.pending⟩, fun h => ⟨h.1, h.2.1, h.2.2⟩⟩
  have hrest : rest.rbio = some s.left := by
    rw [hcalled.rbio, htook.rbio, hanswer]
    rfl
  have hsupply : rest.supply
      = if s.answer.pending = 0 ∧ s.left.length = 0 then fetch s.supply.rest 0 else { rest := s.supply.rest } := by
    rw [TlsStream.supply, hpending, TlsStream.waiting_eq hrest, hcalled.recvs, htook.recvs]
  rw [hemptied, Timely]
  by_cases hnone : s.answer.pending = 0
  · by_cases hnil : s.left = []
    · -- The second pump reads the socket, and at least once.
      rw [if_pos ⟨hnone, List.length_eq_zero_iff.mpr hnil⟩] at hsupply
      rw [hsupply] at htook' ⊢
      have hreads : recvs after ≠ [] := fun h => fetch_reads _ (htook'.idle.mp h)
      rw [List.head?_append_of_ne_nil _ hreads, htook'.last, hnil, List.nil_append]
      simp [hnone]
    · -- The second pump leaves the socket alone.
      rw [if_neg fun h => hnil (List.length_eq_zero_iff.mp h.2)] at hsupply
      rw [hsupply] at htook' ⊢
      rw [htook'.idle.mpr ⟨rfl, rfl⟩, List.nil_append, htook.last, List.append_nil]
      simp [hnone, hnil, and_comm]
  · simp [hnone]

/-- **When a `read` that reports waiting is drained.** -/
theorem read_emptied_iff (s : TlsStream) (bytes : List UInt8) (hphase : s.phase = .established)
    (hrbio : s.rbio = some bytes) :
    let c := s.apart.read
    Honest s → c.1 = .again → (Emptied c.2.log c.2 ↔ Timely s) := by
  intro c hhonest hagain
  cases hssl : s.ssl with
  | true =>
    obtain ⟨new, hlog, -, hwaited⟩ := TlsStream.read_failsBy (s := s.apart) hphase hssl hrbio
    obtain ⟨w⟩ := hwaited hagain fun hwant => (hhonest hwant).1
    rw [show c.2.log = new from hlog.trans (List.append_nil new)]
    exact w.emptied_iff
  | false =>
    obtain ⟨-, -, -, herror⟩ := TlsStream.read_null (s := s.apart) hphase hssl hrbio
    exact absurd (herror.symm.trans hagain) nofun

/-- A record without data for the user arrives, and after it part of another. -/
def partialEnv : Env :=
  { recvs := [.data [23, 3, 3, 0, 1, 9], .again, .data [23, 3, 3], .again], ssl := [{ result := .wantRead, consumed := 6 }] }

theorem partial_emptied :
    let c := (established partialEnv).apart.read
    c.1 = .again ∧ Emptied c.2.log c.2 :=
  ⟨by decide, (read_emptied_iff (established partialEnv) [] (by decide) (by decide) (by decide) (by decide)).mpr (by decide)⟩

/-- A record arrives between the two reads of the socket. -/
def lateEnv : Env := { recvs := [.again, .data [23, 3, 3, 0, 1, 9], .again], ssl := [{ result := .wantRead }] }

/-- It is left in the input BIO, and the socket has been emptied. -/
theorem late_not_emptied :
    let c := (established lateEnv).apart.read
    c.1 = .again ∧ Honest (established lateEnv) ∧ c.2.rbio = some [23, 3, 3, 0, 1, 9] ∧ ¬ Emptied c.2.log c.2 :=
  ⟨by decide, by decide, by decide, fun h => h.rbio (by decide)⟩

end Lepton.Tls
