import Lepton.IoBuffer
import Lepton.Prefixed

/-! The set-up of a TLS context. The constructor of `TlsContext` configures OpenSSL in one call after another and throws at the
first that fails. The path of the CA file and the list of protocol names are copied into an array on the stack if they are
short and into heap memory otherwise. A name goes behind its length; the place in the array is an `unsigned`, of 32 bits,
while the size of the array is a `std::size_t`. -/

namespace Lepton.TlsContext

open Words

variable {mem : List UInt8} {alpn : List (List UInt8)}

/-! ### The constructor -/

/-- `TlsContext::Options`. -/
structure Options where
  verifyPeer : Bool := true
  caFile : List UInt8 := []
  alpn : List (List UInt8) := []

/-- An array on the stack, whatever it holds. -/
structure StackArray (size : Nat) where
  bytes : List UInt8
  length_eq : bytes.length = size

/-- What the constructor finds: the answers of OpenSSL and of the allocator, OpenSSL's text for its last error (empty if
there is none), and the arrays on the stack. -/
structure Env where
  ctxNew : Bool
  setMinProtoVersion : Bool
  verifyPaths : Bool
  setAlpnProtos : Bool
  caMemory : Bool
  wireMemory : Bool
  error : String
  pathBuf : StackArray 256
  wire : StackArray 128

/-- The calls to OpenSSL. -/
inductive Call where
  | ctxNew
  | setMinProtoVersion
  | loadVerifyLocations (path : List UInt8)
  | setDefaultVerifyPaths
  | setVerify (peer : Bool)
  | setAlpnProtos (wire : List UInt8)
  | setMode
  deriving DecidableEq, Repr

/-- How the constructor stops early: by an exception, or by a write or read outside of an array. -/
inductive Stop where
  | thrown (what : String)
  | fault
  deriving DecidableEq, Repr

/-- The calls made, and the reason to stop if there is one. -/
structure Run where
  calls : List Call := []
  stop : Option Stop := none
  deriving DecidableEq, Repr

namespace Run

def andThen (r next : Run) : Run :=
  match r.stop with
  | some _ => r
  | none => ⟨r.calls ++ next.calls, next.stop⟩

def call (c : Call) : Run := ⟨[c], none⟩

def throw (what : String) : Run := ⟨[], some (.thrown what)⟩

def fault : Run := ⟨[], some .fault⟩

/-- A call that may fail. -/
def ask (c : Call) (answer : Bool) (what : String) : Run := ⟨[c], if answer then none else some (.thrown what)⟩

/-- An allocation. -/
def allocate (granted : Bool) : Run := if granted then {} else throw "std::bad_alloc"

/-- The protocol lists handed to OpenSSL. -/
def passed (r : Run) : List (List UInt8) :=
  r.calls.filterMap fun
    | .setAlpnProtos wire => some wire
    | _ => none

end Run

/-- The text of `throw_ssl`. -/
def throwSsl (e : Env) (what : String) : String :=
  what ++ ": " ++ if e.error = "" then "unknown OpenSSL error" else e.error

/-- A write into an array. -/
def store (mem : List UInt8) (pos : Nat) (data : List UInt8) : Option (List UInt8) :=
  if pos + data.length ≤ mem.length then some (put mem pos data) else none

/-- What a callee reads that takes a C string. -/
def cString (bytes : List UInt8) : List UInt8 := bytes.takeWhile (· ≠ 0)

def loadVerifyLocations (e : Env) : Option (List UInt8) → Run
  | none => .fault
  | some path => .ask (.loadVerifyLocations (cString path)) e.verifyPaths (throwSsl e "load_verify_locations failed")

def trustStore (e : Env) (caFile : List UInt8) : Run :=
  if caFile ≠ [] then
    if caFile.length < 256 then
      loadVerifyLocations e do
        let pathBuf ← store e.pathBuf.bytes 0 caFile
        store pathBuf caFile.length [0]
    else (Run.allocate e.caMemory).andThen (loadVerifyLocations e (some (caFile ++ [0])))
  else .ask .setDefaultVerifyPaths e.verifyPaths (throwSsl e "set_default_verify_paths failed")

/-- The sizing pass. There is no size if a name is too long. -/
def totalSize (total : Nat) : List (List UInt8) → Option Nat
  | [] => some total
  | proto :: alpn =>
    if proto = [] then totalSize total alpn
    else if 255 < proto.length then none
    else totalSize (add total (1 + proto.length)) alpn

/-- The modulus of `unsigned`. -/
def unsignedSize : Nat := 2 ^ 32

/-- The writing pass, into an array on the stack or on the heap. -/
def writeWire (mem : List UInt8) (idx : Nat) : List (List UInt8) → Option (List UInt8 × Nat)
  | [] => some (mem, idx)
  | proto :: alpn =>
    if proto = [] then writeWire mem idx alpn
    else
      match store mem idx [UInt8.ofNat proto.length] with
      | none => none
      | some mem =>
        match store mem ((idx + 1) % unsignedSize) proto with
        | none => none
        | some mem => writeWire mem (((idx + 1) % unsignedSize + proto.length) % unsignedSize) alpn

/-- The bytes handed over: those before the place the writing ends at. -/
def wireBytes (mem : List UInt8) (alpn : List (List UInt8)) : Option (List UInt8) :=
  match writeWire mem 0 alpn with
  | none => none
  | some (mem, idx) => if idx ≤ mem.length then some (mem.take idx) else none

def passWire (e : Env) (mem : List UInt8) (alpn : List (List UInt8)) : Run :=
  match wireBytes mem alpn with
  | none => .fault
  | some wire => .ask (.setAlpnProtos wire) e.setAlpnProtos (throwSsl e "set_alpn_protos failed")

/-- The text for a name that is too long. -/
def nameTooLong : String := "ALPN individual protocol name exceeds maximum RFC 7301 limit of 255 bytes"

def offerAlpn (e : Env) (alpn : List (List UInt8)) : Run :=
  if alpn ≠ [] then
    match totalSize 0 alpn with
    | none => .throw nameTooLong
    | some total =>
      if 0 < total then
        if total ≤ 128 then passWire e e.wire.bytes alpn
        -- no vector has more than `PTRDIFF_MAX` elements
        else (Run.allocate (e.wireMemory && total < 2 ^ 63)).andThen (passWire e (List.replicate total 0) alpn)
      else {}
  else {}

/-- The constructor up to the protocol names. -/
def prepare (e : Env) (o : Options) : Run :=
  (Run.ask .ctxNew e.ctxNew (throwSsl e "SSL_CTX_new failed"))
    |>.andThen (.ask .setMinProtoVersion e.setMinProtoVersion (throwSsl e "set_min_proto_version failed"))
    |>.andThen (trustStore e o.caFile)
    |>.andThen (.call (.setVerify o.verifyPeer))

/-- `TlsContext::TlsContext`. -/
def tlsContext (e : Env) (o : Options) : Run :=
  (prepare e o)
    |>.andThen (offerAlpn e o.alpn)
    |>.andThen (.call .setMode)

/-! ### The trust store -/

theorem cString_append (bytes rest : List UInt8) : cString (bytes ++ 0 :: rest) = cString bytes := by
  induction bytes with
  | nil => rfl
  | cons b bytes ih =>
    rw [cString, cString] at ih
    rw [cString, cString, List.cons_append, List.takeWhile_cons, List.takeWhile_cons, ih]

/-- The short path ends in the array. -/
theorem store_path (e : Env) {caFile : List UInt8} (h : caFile.length < 256) :
    ∃ rest, (store e.pathBuf.bytes 0 caFile).bind (store · caFile.length [0]) = some (caFile ++ 0 :: rest) := by
  have hsize := e.pathBuf.length_eq
  have hfit : 0 + caFile.length ≤ e.pathBuf.bytes.length := by omega
  have hput := @put_put e.pathBuf.bytes 0 caFile [0] hfit
  have hlength : caFile.length + [(0 : UInt8)].length ≤ (put e.pathBuf.bytes 0 caFile).length := by
    rw [length_put hfit, hsize, List.length_singleton]
    omega
  rw [store, if_pos hfit, Option.bind_some, store, if_pos hlength]
  rw [Nat.zero_add] at hput
  rw [hput, put, List.take_zero, List.nil_append, List.append_assoc]
  exact ⟨_, rfl⟩

/-- OpenSSL gets the same path from the array and from the string. -/
theorem trustStore_eq (e : Env) {caFile : List UInt8} (h : caFile ≠ []) :
    trustStore e caFile =
      (if caFile.length < 256 then {} else Run.allocate e.caMemory).andThen
        (.ask (.loadVerifyLocations (cString caFile)) e.verifyPaths (throwSsl e "load_verify_locations failed")) := by
  rw [trustStore, if_pos h]
  split
  · next hshort =>
    obtain ⟨rest, hstore⟩ := store_path e hshort
    change loadVerifyLocations e ((store e.pathBuf.bytes 0 caFile).bind (store · caFile.length [0])) = _
    rw [hstore, loadVerifyLocations, cString_append]
    rfl
  · rw [loadVerifyLocations, cString_append]

/-! ### The runs -/

namespace Run

/-- No protocols are handed over, and the only way to stop is an exception. -/
structure Quiet (r : Run) : Prop where
  passed : r.passed = []
  stop : r.stop ≠ some .fault

theorem andThen_of_none {r : Run} (h : r.stop = none) (next : Run) :
    r.andThen next = ⟨r.calls ++ next.calls, next.stop⟩ := by
  rw [andThen, h]

theorem andThen_of_some {r : Run} {s : Stop} (h : r.stop = some s) (next : Run) : r.andThen next = r := by
  rw [andThen, h]

theorem stop_andThen (r next : Run) : (r.andThen next).stop = r.stop.or next.stop := by
  cases hstop : r.stop with
  | some s => rw [andThen_of_some hstop, hstop, Option.some_or]
  | none => rw [andThen_of_none hstop, Option.none_or]

theorem passed_andThen (r next : Run) :
    (r.andThen next).passed = r.passed ++ if r.stop = none then next.passed else [] := by
  cases hstop : r.stop with
  | some s => rw [andThen_of_some hstop, if_neg (Option.some_ne_none s), List.append_nil]
  | none =>
    rw [andThen_of_none hstop, if_pos rfl]
    exact List.filterMap_append

theorem Quiet.andThen {r next : Run} (hr : r.Quiet) (hnext : next.Quiet) : (r.andThen next).Quiet where
  passed := by
    rw [passed_andThen, hr.passed, hnext.passed, ite_self]
    rfl
  stop := by
    rw [stop_andThen, ne_eq, Option.or_eq_some_iff, not_or]
    exact ⟨hr.stop, fun h => hnext.stop h.2⟩

theorem ask_stop (c : Call) (answer : Bool) (what : String) : (ask c answer what).stop ≠ some .fault := by
  cases answer <;> exact nofun

theorem allocate_quiet (granted : Bool) : (allocate granted).Quiet := by
  cases granted <;> exact ⟨rfl, nofun⟩

end Run

theorem trustStore_quiet (e : Env) (caFile : List UInt8) : (trustStore e caFile).Quiet := by
  by_cases h : caFile = []
  · rw [trustStore, if_neg (not_not.mpr h)]
    exact ⟨rfl, Run.ask_stop _ _ _⟩
  · rw [trustStore_eq e h]
    refine Run.Quiet.andThen ?_ ⟨rfl, Run.ask_stop _ _ _⟩
    split
    · exact ⟨rfl, nofun⟩
    · exact Run.allocate_quiet _

theorem prepare_quiet (e : Env) (o : Options) : (prepare e o).Quiet := by
  have hnew : (Run.ask .ctxNew e.ctxNew (throwSsl e "SSL_CTX_new failed")).Quiet := ⟨rfl, Run.ask_stop _ _ _⟩
  have hmin : (Run.ask .setMinProtoVersion e.setMinProtoVersion (throwSsl e "set_min_proto_version failed")).Quiet :=
    ⟨rfl, Run.ask_stop _ _ _⟩
  have hverify : (Run.call (.setVerify o.verifyPeer)).Quiet := ⟨rfl, nofun⟩
  exact ((hnew.andThen hmin).andThen (trustStore_quiet e o.caFile)).andThen hverify

/-- Every call succeeds, and there is memory. -/
structure Env.Willing (e : Env) : Prop where
  ctxNew : e.ctxNew = true
  setMinProtoVersion : e.setMinProtoVersion = true
  verifyPaths : e.verifyPaths = true
  setAlpnProtos : e.setAlpnProtos = true
  caMemory : e.caMemory = true
  wireMemory : e.wireMemory = true

theorem prepare_of_willing {e : Env} (he : e.Willing) (o : Options) : (prepare e o).stop = none := by
  have htrust : (trustStore e o.caFile).stop = none := by
    by_cases h : o.caFile = []
    · rw [trustStore, if_neg (not_not.mpr h), he.verifyPaths]
      rfl
    · rw [trustStore_eq e h, he.caMemory, he.verifyPaths]
      split <;> rfl
  rw [prepare, he.ctxNew, he.setMinProtoVersion, Run.andThen_of_none, Run.call]
  rw [Run.andThen_of_none rfl]
  exact htrust

/-! ### The passes -/

/-- The names that go on the wire. -/
def offered (alpn : List (List UInt8)) : List (List UInt8) := alpn.filter (· ≠ [])

theorem offered_cons {proto : List UInt8} (h : proto ≠ []) (alpn : List (List UInt8)) :
    offered (proto :: alpn) = proto :: offered alpn := List.filter_cons_of_pos (decide_eq_true h)

/-- The number of bytes of the list on the wire. -/
def wireLength (alpn : List (List UInt8)) : Nat := (Prefixed.encode (offered alpn)).length

theorem wireLength_cons {proto : List UInt8} (h : proto ≠ []) (alpn : List (List UInt8)) :
    wireLength (proto :: alpn) = 1 + proto.length + wireLength alpn := by
  rw [wireLength, offered_cons h, Prefixed.encode_cons, List.length_cons, List.length_append, wireLength]
  omega

theorem wireLength_pos (h : offered alpn ≠ []) : 0 < wireLength alpn := by
  obtain ⟨proto, rest, hcons⟩ := List.exists_cons_of_ne_nil h
  rw [wireLength, hcons]
  exact Nat.succ_pos _

theorem totalSize_eq (h : ∀ proto ∈ alpn, proto.length ≤ 255) {total : Nat}
    (htotal : total < wordSize) : totalSize total alpn = some ((total + wireLength alpn) % wordSize) := by
  induction alpn generalizing total with
  | nil => exact congrArg some (Nat.mod_eq_of_lt htotal).symm
  | cons proto alpn ih =>
    obtain ⟨hproto, halpn⟩ := List.forall_mem_cons.mp h
    rw [totalSize]
    split
    · next hempty =>
      subst hempty
      exact ih halpn htotal
    · next hne =>
      rw [if_neg (Nat.not_lt.mpr hproto), ih halpn (add_lt _ _), wireLength_cons hne, add, Nat.mod_add_mod,
        Nat.add_assoc total]

theorem totalSize_eq_none (h : ∃ proto ∈ alpn, 255 < proto.length) (total : Nat) :
    totalSize total alpn = none := by
  obtain ⟨long, hmem, hlong⟩ := h
  induction alpn generalizing total with
  | nil => cases hmem
  | cons proto alpn ih =>
    rw [totalSize]
    rcases List.mem_cons.mp hmem with rfl | hmem
    · have hne : long ≠ [] := List.ne_nil_of_length_pos (by omega)
      rw [if_neg hne, if_pos hlong]
    · split
      · exact ih total hmem
      · split
        · rfl
        · exact ih _ hmem

/-- While the place does not wrap, the list is written behind what is there. -/
theorem writeWire_eq (alpn : List (List UInt8)) {idx : Nat}
    (hfit : idx + wireLength alpn ≤ mem.length) (hidx : idx + wireLength alpn < unsignedSize) :
    writeWire mem idx alpn = some (put mem idx (Prefixed.encode (offered alpn)), idx + wireLength alpn) := by
  induction alpn generalizing mem idx with
  | nil =>
    have hnil : put mem idx [] = mem := by rw [put, List.append_nil, List.length_nil, Nat.add_zero, List.take_append_drop]
    exact congrArg some (Prod.ext hnil.symm rfl)
  | cons proto alpn ih =>
    rw [writeWire]
    split
    · next hempty =>
      subst hempty
      exact ih hfit hidx
    · next hne =>
      rw [wireLength_cons hne] at hfit hidx ⊢
      have hlength : (Prefixed.frame proto).length = 1 + proto.length := Nat.add_comm _ _
      have hbyte : idx + [UInt8.ofNat proto.length].length ≤ mem.length := by
        rw [List.length_singleton]
        omega
      have hname : idx + 1 + proto.length ≤ (put mem idx [UInt8.ofNat proto.length]).length := by
        rw [length_put hbyte]
        omega
      have hframe : idx + (Prefixed.frame proto).length ≤ mem.length := by omega
      have hput : put (put mem idx [UInt8.ofNat proto.length]) (idx + 1) proto = put mem idx (Prefixed.frame proto) :=
        put_put hbyte
      have hplace : idx + 1 + proto.length = idx + (Prefixed.frame proto).length := by omega
      have hend : idx + (1 + proto.length + wireLength alpn) = idx + (Prefixed.frame proto).length + wireLength alpn := by
        omega
      rw [store, if_pos hbyte]
      dsimp only
      rw [Nat.mod_eq_of_lt (by omega : idx + 1 < unsignedSize), store, if_pos hname]
      dsimp only
      rw [Nat.mod_eq_of_lt (by omega : idx + 1 + proto.length < unsignedSize), hput, hplace,
        ih (by rw [length_put hframe]; omega) (by omega), put_put hframe, offered_cons hne, hend]
      rfl

theorem wireBytes_eq (hfit : wireLength alpn ≤ mem.length)
    (hsmall : wireLength alpn < unsignedSize) : wireBytes mem alpn = some (Prefixed.encode (offered alpn)) := by
  have hwrite := @writeWire_eq mem alpn 0 (by omega) (by omega)
  have hput : 0 + (Prefixed.encode (offered alpn)).length ≤ mem.length := by
    rw [Nat.zero_add]
    exact hfit
  rw [wireBytes, hwrite]
  dsimp only
  rw [length_put hput, Nat.zero_add, if_pos hfit]
  exact congrArg some (slice_put hput)

/-- The place stays an `unsigned`. -/
theorem writeWire_lt {mem' : List UInt8} {idx idx' : Nat} (hidx : idx < unsignedSize)
    (h : writeWire mem idx alpn = some (mem', idx')) : idx' < unsignedSize := by
  induction alpn generalizing mem idx with
  | nil =>
    cases h
    exact hidx
  | cons proto alpn ih =>
    rw [writeWire] at h
    split at h
    · exact ih hidx h
    · split at h
      · cases h
      · split at h
        · cases h
        · exact ih (Nat.mod_lt _ (by decide)) h

theorem length_wireBytes {wire : List UInt8} (h : wireBytes mem alpn = some wire) :
    wire.length < unsignedSize := by
  rw [wireBytes] at h
  split at h
  · cases h
  · next hwrite =>
    split at h
    · cases h
      exact (List.length_take_le _ _).trans_lt (writeWire_lt (by decide) hwrite)
    · cases h

/-! ### The protocols offered -/

/-- The protocol lists are encoded exactly: a name that is too long is refused before OpenSSL sees the list; otherwise there
is one sequence of bytes that reads as the names, it is what every array of the computed size or more gets, and it is the
only one handed over. -/
structure AlpnExact (o : Options) : Prop where
  tooLong : (∃ proto ∈ o.alpn, 255 < proto.length) →
    ∀ e, (∃ what, (tlsContext e o).stop = some (.thrown what)) ∧ (tlsContext e o).passed = []
  exact : (∀ proto ∈ o.alpn, proto.length ≤ 255) →
    ∃ total wire, totalSize 0 o.alpn = some total ∧ wire.length = total ∧ Prefixed.decode wire = some (offered o.alpn) ∧
      (∀ mem : List UInt8, total ≤ mem.length → wireBytes mem o.alpn = some wire) ∧
      ∀ e, (tlsContext e o).stop ≠ some .fault ∧ ((tlsContext e o).passed = [] ∨ (tlsContext e o).passed = [wire]) ∧
        (e.Willing → (tlsContext e o).passed = if offered o.alpn = [] then [] else [wire])

theorem tlsContext_stop (e : Env) (o : Options) :
    (tlsContext e o).stop = (prepare e o).stop.or (offerAlpn e o.alpn).stop := by
  rw [tlsContext, Run.stop_andThen, Run.stop_andThen]
  exact Option.or_none

theorem tlsContext_passed (e : Env) (o : Options) :
    (tlsContext e o).passed = if (prepare e o).stop = none then (offerAlpn e o.alpn).passed else [] := by
  have hmode : (Run.call .setMode).passed = [] := rfl
  rw [tlsContext, Run.passed_andThen, Run.passed_andThen, (prepare_quiet e o).passed, hmode, ite_self, List.append_nil,
    List.nil_append]

theorem prepare_stop (e : Env) (o : Options) : (prepare e o).stop = none ∨ ∃ what, (prepare e o).stop = some (.thrown what) := by
  cases hstop : (prepare e o).stop with
  | none => exact Or.inl rfl
  | some s =>
    cases s with
    | thrown what => exact Or.inr ⟨what, rfl⟩
    | fault => exact absurd hstop (prepare_quiet e o).stop

theorem offerAlpn_tooLong (e : Env) (h : ∃ proto ∈ alpn, 255 < proto.length) :
    offerAlpn e alpn = .throw nameTooLong := by
  have hne : alpn ≠ [] := by
    obtain ⟨proto, hmem, -⟩ := h
    exact List.ne_nil_of_mem hmem
  rw [offerAlpn, if_pos hne, totalSize_eq_none h]

/-- The runs for a list that fits an `unsigned`. -/
theorem offerAlpn_eq (e : Env) (h : ∀ proto ∈ alpn, proto.length ≤ 255)
    (hsmall : wireLength alpn < unsignedSize) :
    offerAlpn e alpn =
      if offered alpn = [] then {}
      else (if wireLength alpn ≤ 128 then {} else Run.allocate e.wireMemory).andThen
        (.ask (.setAlpnProtos (Prefixed.encode (offered alpn))) e.setAlpnProtos (throwSsl e "set_alpn_protos failed")) := by
  have hword : wireLength alpn < wordSize := hsmall.trans (by decide)
  have hpass {mem : List UInt8} (hfit : wireLength alpn ≤ mem.length) : passWire e mem alpn =
      .ask (.setAlpnProtos (Prefixed.encode (offered alpn))) e.setAlpnProtos (throwSsl e "set_alpn_protos failed") := by
    rw [passWire, wireBytes_eq hfit hsmall]
  by_cases halpn : alpn = []
  · subst halpn
    rfl
  rw [offerAlpn, if_pos halpn, totalSize_eq h (by decide), Nat.zero_add, Nat.mod_eq_of_lt hword]
  dsimp only
  by_cases hoff : offered alpn = []
  · have hzero : wireLength alpn = 0 := by rw [wireLength, hoff]; rfl
    rw [if_neg (by omega), if_pos hoff]
  · rw [if_pos (wireLength_pos hoff), if_neg hoff]
    by_cases hstack : wireLength alpn ≤ 128
    · rw [if_pos hstack, if_pos hstack, hpass (hstack.trans_eq e.wire.length_eq.symm)]
      rfl
    · have hvector : wireLength alpn < 2 ^ 63 := hsmall.trans (by decide)
      rw [if_neg hstack, if_neg hstack, hpass List.length_replicate.ge, decide_eq_true hvector, Bool.and_true]

theorem length_passWire (e : Env) {wire : List UInt8}
    (h : wire ∈ (passWire e mem alpn).passed) : wire.length < unsignedSize := by
  rw [passWire] at h
  split at h
  · cases h
  · next hbytes =>
    rw [List.mem_singleton.mp h]
    exact length_wireBytes hbytes

/-- No list of more bytes than an `unsigned` counts is handed over. -/
theorem length_offerAlpn (e : Env) {wire : List UInt8}
    (h : wire ∈ (offerAlpn e alpn).passed) : wire.length < unsignedSize := by
  rw [offerAlpn] at h
  split at h
  · split at h
    · cases h
    · split at h
      · split at h
        · exact length_passWire e h
        · rw [Run.passed_andThen, (Run.allocate_quiet _).passed, List.nil_append] at h
          split at h
          · exact length_passWire e h
          · cases h
      · cases h
  · cases h

/-- Nothing fails. -/
def willing : Env where
  ctxNew := true
  setMinProtoVersion := true
  verifyPaths := true
  setAlpnProtos := true
  caMemory := true
  wireMemory := true
  error := ""
  pathBuf := ⟨List.replicate 256 0, List.length_replicate⟩
  wire := ⟨List.replicate 128 0, List.length_replicate⟩

theorem willing_willing : willing.Willing := ⟨rfl, rfl, rfl, rfl, rfl, rfl⟩

/-- A list that is too large for an `unsigned` is not handed over as it is. -/
theorem not_alpnExact {o : Options} (h : ∀ proto ∈ o.alpn, proto.length ≤ 255) (hlarge : unsignedSize ≤ wireLength o.alpn) :
    ¬ AlpnExact o := by
  intro hexact
  obtain ⟨total, wire, -, -, hdecode, -, hruns⟩ := hexact.exact h
  have hoff : offered o.alpn ≠ [] := by
    intro hoff
    rw [wireLength, hoff] at hlarge
    exact absurd hlarge (by decide)
  have hpassed := (hruns willing).2.2 willing_willing
  rw [if_neg hoff, tlsContext_passed, prepare_of_willing willing_willing, if_pos rfl] at hpassed
  have hmem : wire ∈ (offerAlpn willing o.alpn).passed := by
    rw [hpassed]
    exact List.mem_singleton_self _
  have hshort := length_offerAlpn willing hmem
  rw [Prefixed.eq_encode_of_decode hdecode] at hshort
  exact absurd hlarge (Nat.not_le.mpr hshort)

/-- A name that is too long is refused. -/
theorem tlsContext_tooLong (e : Env) {o : Options} (h : ∃ proto ∈ o.alpn, 255 < proto.length) :
    (∃ what, (tlsContext e o).stop = some (.thrown what)) ∧ (tlsContext e o).passed = [] := by
  rw [tlsContext_stop, tlsContext_passed, offerAlpn_tooLong e h]
  rcases prepare_stop e o with hstop | ⟨what, hstop⟩
  · rw [hstop]
    exact ⟨⟨nameTooLong, rfl⟩, rfl⟩
  · rw [hstop]
    exact ⟨⟨what, rfl⟩, rfl⟩

theorem offerAlpn_passed (e : Env) (h : ∀ proto ∈ alpn, proto.length ≤ 255)
    (hsmall : wireLength alpn < unsignedSize) :
    (offerAlpn e alpn).stop ≠ some .fault ∧
      ((offerAlpn e alpn).passed = [] ∨ (offerAlpn e alpn).passed = [Prefixed.encode (offered alpn)]) ∧
      (e.Willing → (offerAlpn e alpn).passed = if offered alpn = [] then [] else [Prefixed.encode (offered alpn)]) := by
  rw [offerAlpn_eq e h hsmall]
  by_cases hoff : offered alpn = []
  · rw [if_pos hoff, if_pos hoff]
    exact ⟨nofun, Or.inl rfl, fun _ => rfl⟩
  · rw [if_neg hoff, if_neg hoff]
    have hroom : (if wireLength alpn ≤ 128 then {} else Run.allocate e.wireMemory).Quiet := by
      split
      · exact ⟨rfl, nofun⟩
      · exact Run.allocate_quiet _
    rw [Run.stop_andThen, Run.passed_andThen, hroom.passed, List.nil_append]
    refine ⟨?_, ?_, fun he => ?_⟩
    · rw [ne_eq, Option.or_eq_some_iff, not_or]
      exact ⟨hroom.stop, fun h => Run.ask_stop _ _ _ h.2⟩
    · exact (ite_eq_or_eq _ _ _).symm
    · rw [he.wireMemory, if_pos (by split <;> rfl)]
      rfl

/-- **The protocols offered.** They are encoded exactly just if a name is too long, which is refused, or the list on the wire
has less than `2 ^ 32` bytes. -/
theorem alpnExact_iff (o : Options) :
    AlpnExact o ↔ (∃ proto ∈ o.alpn, 255 < proto.length) ∨ wireLength o.alpn < 2 ^ 32 := by
  constructor
  · intro hexact
    by_contra hnot
    rw [not_or, Nat.not_lt] at hnot
    refine not_alpnExact (fun proto hmem => ?_) hnot.2 hexact
    exact Nat.not_lt.mp fun hlong => hnot.1 ⟨proto, hmem, hlong⟩
  · intro hcases
    refine ⟨fun hlong e => tlsContext_tooLong e hlong, fun hshort => ?_⟩
    have hsmall : wireLength o.alpn < unsignedSize := by
      rcases hcases with ⟨proto, hmem, hlong⟩ | hsmall
      · exact absurd hlong (Nat.not_lt.mpr (hshort proto hmem))
      · exact hsmall
    have htotal : totalSize 0 o.alpn = some (wireLength o.alpn) := by
      rw [totalSize_eq hshort (by decide), Nat.zero_add, Nat.mod_eq_of_lt (hsmall.trans (by decide))]
    have hoffered : ∀ proto ∈ offered o.alpn, proto.length ≤ 255 := fun proto hmem => hshort proto (List.mem_of_mem_filter hmem)
    refine ⟨_, _, htotal, rfl, Prefixed.decode_encode hoffered, fun mem hfit => wireBytes_eq hfit hsmall, fun e => ?_⟩
    obtain ⟨hfault, hpassed, hwilling⟩ := offerAlpn_passed e hshort hsmall
    rw [tlsContext_stop, tlsContext_passed]
    refine ⟨?_, ?_, fun he => ?_⟩
    · rw [ne_eq, Option.or_eq_some_iff, not_or]
      exact ⟨(prepare_quiet e o).stop, fun h => hfault h.2⟩
    · split
      · exact hpassed
      · exact Or.inl rfl
    · rw [if_pos (prepare_of_willing he o)]
      exact hwilling he

/-! The list of the refutation: `2 ^ 24` names of 255 bytes. Its size is `2 ^ 32`, the place ends at zero, and OpenSSL is
handed no bytes at all. -/

/-- The place, when it may wrap: an array of the list's size is never left. -/
theorem writeWire_wraps (alpn : List (List UInt8)) {idx : Nat} (hfit : idx + wireLength alpn ≤ mem.length) :
    ∃ mem', mem'.length = mem.length ∧
      writeWire mem (idx % unsignedSize) alpn = some (mem', (idx + wireLength alpn) % unsignedSize) := by
  induction alpn generalizing mem idx with
  | nil => exact ⟨mem, rfl, rfl⟩
  | cons proto alpn ih =>
    rw [writeWire]
    split
    · next hempty =>
      subst hempty
      exact ih hfit
    · next hne =>
      rw [wireLength_cons hne] at hfit ⊢
      have hmod : idx % unsignedSize ≤ idx := Nat.mod_le _ _
      have hmod' : (idx + 1) % unsignedSize ≤ idx + 1 := Nat.mod_le _ _
      have hbyte : idx % unsignedSize + [UInt8.ofNat proto.length].length ≤ mem.length := by
        rw [List.length_singleton]
        omega
      rw [store, if_pos hbyte]
      dsimp only
      have hname : (idx + 1) % unsignedSize + proto.length ≤
          (put mem (idx % unsignedSize) [UInt8.ofNat proto.length]).length := by
        rw [length_put hbyte]
        omega
      rw [Nat.mod_add_mod, store, if_pos hname]
      dsimp only
      rw [Nat.mod_add_mod]
      obtain ⟨mem', hlength, hwrite⟩ :=
        @ih (put (put mem (idx % unsignedSize) [UInt8.ofNat proto.length]) ((idx + 1) % unsignedSize) proto)
          (idx + 1 + proto.length) (by rw [length_put hname, length_put hbyte]; omega)
      refine ⟨mem', hlength.trans ((length_put hname).trans (length_put hbyte)), ?_⟩
      rw [hwrite]
      have hend : idx + 1 + proto.length + wireLength alpn = idx + (1 + proto.length + wireLength alpn) := by omega
      rw [hend]

/-- The list of `n` names of 255 bytes. -/
def manyNames (n : Nat) : List (List UInt8) := List.replicate n (List.replicate 255 97)

theorem wireLength_manyNames (n : Nat) : wireLength (manyNames n) = n * 256 := by
  induction n with
  | zero => rfl
  | succ n ih =>
    have hne : List.replicate 255 (97 : UInt8) ≠ [] := List.cons_ne_nil _ _
    rw [manyNames, List.replicate_succ, wireLength_cons hne, ← manyNames, ih, List.length_replicate]
    omega

theorem length_of_mem_manyNames {n : Nat} : ∀ proto ∈ manyNames n, proto.length ≤ 255 := by
  intro proto hmem
  rw [List.eq_of_mem_replicate hmem, List.length_replicate]

theorem manyNames_lost {n : Nat} (hn : n * 256 = unsignedSize) :
    totalSize 0 (manyNames n) = some unsignedSize ∧ (tlsContext willing { alpn := manyNames n }).passed = [[]] := by
  have hlength : wireLength (manyNames n) = unsignedSize := (wireLength_manyNames n).trans hn
  have htotal : totalSize 0 (manyNames n) = some unsignedSize := by
    rw [totalSize_eq length_of_mem_manyNames (by decide), hlength]
    rfl
  refine ⟨htotal, ?_⟩
  have hne : manyNames n ≠ [] := by
    intro hnil
    rw [hnil] at hlength
    exact absurd hlength (by decide)
  obtain ⟨mem', -, hwrite⟩ := @writeWire_wraps (List.replicate unsignedSize 0) (manyNames n) 0
    (by rw [hlength, List.length_replicate, Nat.zero_add])
  have hbytes : wireBytes (List.replicate unsignedSize 0) (manyNames n) = some [] := by
    rw [hlength, Nat.zero_add, Nat.mod_self, Nat.zero_mod] at hwrite
    rw [wireBytes, hwrite]
    rfl
  rw [tlsContext_passed, if_pos (prepare_of_willing willing_willing _), offerAlpn, if_pos hne, htotal]
  dsimp only
  rw [if_pos (by decide), if_neg (by decide), passWire, hbytes]
  rfl

theorem manyNames_not_exact :
    (∀ proto ∈ manyNames (2 ^ 24), proto.length ≤ 255) ∧ totalSize 0 (manyNames (2 ^ 24)) = some (2 ^ 32) ∧
      (tlsContext willing { alpn := manyNames (2 ^ 24) }).passed = [[]] ∧ ¬ AlpnExact { alpn := manyNames (2 ^ 24) } := by
  obtain ⟨htotal, hpassed⟩ := @manyNames_lost (2 ^ 24) rfl
  have hlarge : unsignedSize ≤ wireLength (manyNames (2 ^ 24)) := by
    rw [wireLength_manyNames]
    decide
  exact ⟨length_of_mem_manyNames, htotal, hpassed, not_alpnExact length_of_mem_manyNames hlarge⟩

end Lepton.TlsContext
