import Lepton.HttpClient
import Lepton.HttpWire

/-! The request builders as they write. `build_http_request` and `build_ws_upgrade` append their pieces to a buffer of the
caller, each piece behind a check that it fits; the length of a body is written digit by digit into a small array, from
its end. A copy that leaves the buffer or the array is the outcome `fault`. The text in the buffer is the one that the
models of the client and the session work with. -/

namespace Lepton.Http

open Words Search

/-! ### The numeral -/

/-- `char num[24]`, whatever it holds. -/
structure NumArray where
  chars : List UInt8
  size : chars.length = 24

/-- The digit loop: `num[--p] = '0' + v % 10` while digits are left. -/
def digitLoop (num : List UInt8) : Nat → Nat → Option (List UInt8 × Nat)
  | 0, _ => none
  | p + 1, v =>
    let num := num.set p (UInt8.ofNat (48 + v % 10))
    if v / 10 = 0 then some (num, p) else digitLoop num p (v / 10)

/-- The canonical numeral of `v`. -/
structure Numeral (v : Nat) (digits : List UInt8) : Prop where
  decimal : ∀ c ∈ digits, (decDigit c).isSome = true
  value : digitsValue 10 decDigit digits = v
  nonempty : digits ≠ []
  /-- No leading zero. -/
  leading : v ≠ 0 → digits.head? ≠ some 48

theorem decimal_eq (v : Nat) :
    decimal v = if v < 10 then [UInt8.ofNat (48 + v)] else decimal (v / 10) ++ [UInt8.ofNat (48 + v % 10)] := by
  have hchar : ∀ d < 10, (Nat.digitChar d).toNat.toUInt8 = UInt8.ofNat (48 + d) := by decide
  rw [decimal, Nat.toDigits_eq_if (by decide)]
  split
  · next hv => rw [List.map_cons, List.map_nil, hchar v hv]
  · rw [List.map_append, List.map_cons, List.map_nil, hchar _ (Nat.mod_lt v (by decide))]
    rfl

theorem decDigit_ofNat {d : Nat} (hd : d < 10) : decDigit (UInt8.ofNat (48 + d)) = some d := by
  have hall : ∀ d < 10, decDigit (UInt8.ofNat (48 + d)) = some d := by decide
  exact hall d hd

theorem numeral_digit {v : Nat} (hv : v < 10) : Numeral v [UInt8.ofNat (48 + v)] where
  decimal := by
    intro c hc
    rw [List.mem_singleton.mp hc, decDigit_ofNat hv]
    rfl
  value := by
    rw [digitsValue, List.foldl_cons, List.foldl_nil, decDigit_ofNat hv]
    exact Nat.zero_add v
  nonempty := List.cons_ne_nil _ _
  leading := by
    intro hne hzero
    have hdigit := decDigit_ofNat hv
    rw [Option.some.inj hzero] at hdigit
    exact hne (Option.some.inj hdigit).symm

theorem Numeral.snoc {v d : Nat} {digits : List UInt8} (h : Numeral v digits) (hv : v ≠ 0) (hd : d < 10) :
    Numeral (v * 10 + d) (digits ++ [UInt8.ofNat (48 + d)]) where
  decimal := by
    intro c hc
    rcases List.mem_append.mp hc with hc | hc
    · exact h.decimal c hc
    · rw [List.mem_singleton.mp hc, decDigit_ofNat hd]
      rfl
  value := by
    have hvalue := h.value
    rw [digitsValue] at hvalue ⊢
    rw [List.foldl_append, hvalue, List.foldl_cons, List.foldl_nil, decDigit_ofNat hd]
    rfl
  nonempty := List.append_ne_nil_of_right_ne_nil _ (List.cons_ne_nil _ _)
  leading := by
    intro _
    rw [List.head?_append_of_ne_nil _ h.nonempty]
    exact h.leading hv

theorem decimal_numeral (v : Nat) : Numeral v (decimal v) := by
  induction v using Nat.strong_induction_on with
  | _ v ih =>
    rw [decimal_eq]
    split
    · next hv => exact numeral_digit hv
    · next hv =>
      have hnumeral := (ih (v / 10) (by omega)).snoc (by omega) (Nat.mod_lt v (by decide))
      rwa [Nat.div_add_mod'] at hnumeral

/-- The loop fills the array from `p` downwards with the numeral. -/
theorem digitLoop_eq {p v : Nat} (num : List UInt8) (hp : p ≤ num.length) (hpos : 0 < p) (hv : v < 10 ^ p) :
    ∃ num' p', digitLoop num p v = some (num', p') ∧ num'.length = num.length ∧
      num'.drop p' = decimal v ++ num.drop p := by
  induction p generalizing num v with
  | zero => exact absurd hpos (Nat.lt_irrefl 0)
  | succ p ih =>
    have hset : (num.set p (UInt8.ofNat (48 + v % 10))).drop p = UInt8.ofNat (48 + v % 10) :: num.drop (p + 1) := by
      rw [List.drop_set, if_neg (Nat.lt_irrefl p), Nat.sub_self, List.drop_eq_getElem_cons hp]
      rfl
    rw [digitLoop, decimal_eq]
    split
    · next hlast =>
      refine ⟨_, p, rfl, List.length_set, ?_⟩
      rw [hset, if_pos (by omega), Nat.mod_eq_of_lt (by omega)]
      rfl
    · next hmore =>
      have hpos' : 0 < p := by
        refine Nat.pos_of_ne_zero ?_
        rintro rfl
        omega
      have hv' : v / 10 < 10 ^ p := by
        rw [Nat.pow_succ] at hv
        omega
      obtain ⟨num', p', hloop, hlength, hdrop⟩ := ih (num.set p (UInt8.ofNat (48 + v % 10)))
        (by rw [List.length_set]; omega) hpos' hv'
      refine ⟨num', p', hloop, hlength.trans List.length_set, ?_⟩
      rw [hdrop, hset, if_neg (by omega), List.append_assoc]
      rfl

/-- What stands in the array behind the loop. -/
def numeral (num : NumArray) (v : Nat) : Option (List UInt8) :=
  (digitLoop num.chars 24 v).map fun (chars, p) => slice chars p (24 - p)

theorem numeral_eq (num : NumArray) {v : Nat} (hv : v < wordSize) : numeral num v = some (decimal v) := by
  have hfit : v < 10 ^ 24 := hv.trans (by decide)
  obtain ⟨chars, p, hloop, hlength, hdrop⟩ := digitLoop_eq num.chars num.size.ge (by decide) hfit
  rw [List.drop_eq_nil_of_le num.size.le, List.append_nil] at hdrop
  rw [numeral, hloop, Option.map_some]
  dsimp only
  rw [slice, hdrop, List.take_of_length_le]
  rw [← hdrop, List.length_drop, hlength, num.size]

/-- The numeral is read back by the loop that reads a Content-Length. -/
theorem parseDecLoop_decimal {v : Nat} (hv : v < wordSize) : parseDecLoop 0 (decimal v) = v := by
  rw [parseDecLoop_value _ (decimal_numeral v).decimal, (decimal_numeral v).value, Nat.mod_eq_of_lt hv]

/-! ### The writer -/

/-- Why a builder stops: a piece that does not fit, or a copy that leaves the buffer. -/
inductive Stop where
  | full (dst : List UInt8)
  | fault
  deriving DecidableEq, Repr

/-- The buffer of the caller, and the length of the text in it. -/
structure Writer where
  dst : List UInt8
  o : Nat := 0
  deriving DecidableEq, Repr

namespace Writer

/-- The lambda `put`. -/
def put (w : Writer) (piece : List UInt8) : Except Stop Writer :=
  if w.dst.length < add w.o piece.length then .error (.full w.dst)
  else if w.o + piece.length ≤ w.dst.length then .ok ⟨Lepton.put w.dst w.o piece, add w.o piece.length⟩
  else .error .fault

/-- `put(..)` of one piece after another, up to the first that does not fit. -/
def putAll (w : Writer) (pieces : List (List UInt8)) : Except Stop Writer := pieces.foldlM put w

end Writer

/-- What a builder returns. -/
inductive Built where
  | ret (n : Nat) (dst : List UInt8)
  | fault
  deriving DecidableEq, Repr

def Built.of : Except Stop Writer → Built
  | .ok w => .ret w.o w.dst
  | .error (.full dst) => .ret 0 dst
  | .error .fault => .fault

/-- The pieces of an upgrade request. -/
def upgradePieces (host path secKey : List UInt8) : List (List UInt8) :=
  [ascii "GET ", path, ascii " HTTP/1.1\r\nHost: ", host,
   ascii "\r\nUpgrade: websocket\r\nConnection: Upgrade\r\nSec-WebSocket-Key: ", secKey,
   ascii "\r\nSec-WebSocket-Version: 13\r\n\r\n"]

namespace Writer

/-- The pieces of a request, one after another. -/
def writeRequest (w : Writer) (num : NumArray) (host : List UInt8) (r : Request) : Except Stop Writer := do
  let w ← w.putAll [httpMethodStr r.method, ascii " ", r.path, ascii " HTTP/1.1\r\nHost: ", host, crlf]
  let w ← r.headerLines.foldlM (fun w h => putAll w [h, crlf]) w
  let w ← if r.body = [] then pure w else
    match numeral num r.body.length with
    | none => .error .fault
    | some text => w.putAll [ascii "Content-Length: ", text, crlf]
  let w ← w.put crlf
  if r.body = [] then pure w else w.put r.body

/-- `build_http_request`. -/
def buildHttpRequest (dst : List UInt8) (num : NumArray) (host : List UInt8) (r : Request) : Built :=
  .of (writeRequest ⟨dst, 0⟩ num host r)

/-- `build_ws_upgrade`. -/
def buildWsUpgrade (dst : List UInt8) (host path secKey : List UInt8) : Built :=
  .of (putAll ⟨dst, 0⟩ (upgradePieces host path secKey))

/-- The writer behind a text, in the buffer `dst`. -/
def holding (dst text : List UInt8) : Writer := ⟨Lepton.put dst 0 text, text.length⟩

theorem holding_nil (dst : List UInt8) : holding dst [] = ⟨dst, 0⟩ := by
  rw [holding, Lepton.put]
  rfl

theorem length_holding {dst text : List UInt8} (h : text.length ≤ dst.length) : (holding dst text).dst.length = dst.length :=
  length_put (by omega)

/-- One piece: it is appended, or it does not fit. -/
theorem put_holding {dst text piece : List UInt8} (hdst : dst.length < 2 ^ 63) (hpiece : piece.length < 2 ^ 63)
    (htext : text.length ≤ dst.length) :
    (holding dst text).put piece =
      if (text ++ piece).length ≤ dst.length then .ok (holding dst (text ++ piece)) else .error (.full (holding dst text).dst) := by
  have hadd : add text.length piece.length = (text ++ piece).length := by
    rw [List.length_append]
    exact add_of_lt (by rw [wordSize]; omega)
  have hput : Lepton.put (Lepton.put dst 0 text) text.length piece = Lepton.put dst 0 (text ++ piece) := by
    have hbehind := @put_put dst 0 text piece (by omega)
    rwa [Nat.zero_add] at hbehind
  unfold put
  rw [length_holding htext]
  change (if dst.length < add text.length piece.length then _ else if text.length + piece.length ≤ dst.length then
    Except.ok (⟨Lepton.put (Lepton.put dst 0 text) text.length piece, add text.length piece.length⟩ : Writer) else _) = _
  rw [hadd, hput, ← List.length_append]
  split
  · next hfull => rw [if_neg (Nat.not_le.mpr hfull)]
  · next hfit =>
    rw [if_pos (Nat.not_lt.mp hfit), if_pos (Nat.not_lt.mp hfit)]
    rfl

/-- The text is appended as a whole, or up to a piece that does not fit. -/
theorem putAll_holding {dst : List UInt8} (hdst : dst.length < 2 ^ 63) {pieces : List (List UInt8)}
    (hpieces : ∀ piece ∈ pieces, piece.length < 2 ^ 63) {text : List UInt8} (htext : text.length ≤ dst.length) :
    ((text ++ pieces.flatten).length ≤ dst.length ∧ (holding dst text).putAll pieces = .ok (holding dst (text ++ pieces.flatten))) ∨
    (dst.length < (text ++ pieces.flatten).length ∧ ∃ part, part <+: text ++ pieces.flatten ∧ part.length ≤ dst.length ∧
      (holding dst text).putAll pieces = .error (.full (holding dst part).dst)) := by
  induction pieces generalizing text with
  | nil =>
    rw [List.flatten_nil, List.append_nil]
    exact Or.inl ⟨htext, rfl⟩
  | cons piece rest ih =>
    obtain ⟨hpiece, hrest⟩ := List.forall_mem_cons.mp hpieces
    rw [List.flatten_cons, ← List.append_assoc, putAll, List.foldlM_cons, put_holding hdst hpiece htext]
    split
    · next hfit => exact ih hrest hfit
    · next hfull =>
      refine Or.inr ⟨?_, text, ?_, htext, rfl⟩
      · rw [List.length_append]
        omega
      · rw [List.append_assoc]
        exact List.prefix_append _ _

theorem putAll_nil (w : Writer) : w.putAll [] = pure w := rfl

theorem putAll_singleton (w : Writer) (piece : List UInt8) : w.putAll [piece] = w.put piece := by
  rw [putAll, List.foldlM_cons]
  exact bind_pure _

theorem putAll_append (w : Writer) (xs ys : List (List UInt8)) : w.putAll (xs ++ ys) = w.putAll xs >>= (putAll · ys) :=
  List.foldlM_append

/-- The header lines are pieces like the others. -/
theorem foldlM_headerLines (w : Writer) (ls : List (List UInt8)) :
    ls.foldlM (fun w h => putAll w [h, crlf]) w = w.putAll (ls.flatMap fun h => [h, crlf]) := by
  induction ls generalizing w with
  | nil => rfl
  | cons h ls ih =>
    rw [List.foldlM_cons, List.flatMap_cons, putAll_append]
    exact congrArg _ (funext ih)

end Writer

/-- The builder puts `text` into `dst`, or returns zero with a part of it written. -/
def BuildsExactly (dst text : List UInt8) (b : Built) : Prop :=
  ∃ n dst', b = .ret n dst' ∧ (0 < n ↔ text.length ≤ dst.length) ∧
    (0 < n → n = text.length ∧ dst' = text ++ dst.drop n) ∧
    (n = 0 → ∃ part, part <+: text ∧ part.length ≤ dst.length ∧ dst' = part ++ dst.drop part.length)

theorem putAll_buildsExactly (dst : Buffer) {pieces : List (List UInt8)}
    (hpieces : ∀ piece ∈ pieces, piece.length < 2 ^ 63) (hne : pieces.flatten ≠ []) :
    BuildsExactly dst.bytes pieces.flatten (.of (Writer.putAll ⟨dst.bytes, 0⟩ pieces)) := by
  have hdst (text : List UInt8) : (Writer.holding dst.bytes text).dst = text ++ dst.bytes.drop text.length := by
    rw [Writer.holding, put, List.take_zero, List.nil_append, Nat.zero_add]
  have hpos : 0 < pieces.flatten.length := List.length_pos_of_ne_nil hne
  have hempty : ([] : List UInt8).length ≤ dst.bytes.length := Nat.zero_le _
  have hrun := Writer.putAll_holding dst.small hpieces hempty
  rw [Writer.holding_nil, List.nil_append] at hrun
  rcases hrun with ⟨hfit, hrun⟩ | ⟨hfull, part, hpart, hlen, hrun⟩
  · rw [hrun]
    refine ⟨_, _, rfl, iff_of_true hpos hfit, fun _ => ⟨rfl, hdst _⟩, fun h => ?_⟩
    exact absurd h hpos.ne'
  · rw [hrun]
    refine ⟨_, _, rfl, iff_of_false (Nat.lt_irrefl 0) (Nat.not_le.mpr hfull), fun h => ?_, fun _ => ?_⟩
    · exact absurd h (Nat.lt_irrefl 0)
    · exact ⟨part, hpart, hlen, hdst part⟩

/-! ### The requests -/

/-- The models of the client and the session take the pieces together. -/
theorem putAll_eq {room : Nat} {text : List UInt8} (htext : text.length ≤ room) (pieces : List (List UInt8)) :
    Ws.putAll room text pieces =
      if (text ++ pieces.flatten).length ≤ room then some (text ++ pieces.flatten) else none := by
  induction pieces generalizing text with
  | nil =>
    rw [List.flatten_nil, List.append_nil, if_pos htext]
    rfl
  | cons piece rest ih =>
    rw [Ws.putAll, List.flatten_cons, ← List.append_assoc, ← List.length_append]
    split
    · next hfull =>
      rw [if_neg]
      rw [List.length_append]
      omega
    · next hfit => exact ih (Nat.not_lt.mp hfit)

theorem buildWsUpgrade_eq (room : Nat) (host path secKey : List UInt8) :
    Ws.buildWsUpgrade room host path secKey =
      if (upgradePieces host path secKey).flatten.length ≤ room then some (upgradePieces host path secKey).flatten
      else none := putAll_eq (Nat.zero_le _) _

/-- The upgrade request is written exactly if it fits. -/
theorem buildWsUpgrade_buildsExactly (dst host path secKey : Buffer) :
    BuildsExactly dst.bytes (upgradePieces host.bytes path.bytes secKey.bytes).flatten
      (Writer.buildWsUpgrade dst.bytes host.bytes path.bytes secKey.bytes) := by
  refine putAll_buildsExactly dst ?_ (by rw [upgradePieces, List.flatten_cons]; exact List.cons_ne_nil _ _)
  simp only [upgradePieces, List.forall_mem_cons]
  exact ⟨by decide, path.small, by decide, host.small, by decide, secKey.small, by decide,
    List.forall_mem_nil _⟩

/-- The pieces of a request. -/
def requestPieces (host : List UInt8) (r : Request) : List (List UInt8) :=
  [httpMethodStr r.method, ascii " ", r.path, ascii " HTTP/1.1\r\nHost: ", host, crlf]
    ++ r.headerLines.flatMap (fun h => [h, crlf])
    ++ (if r.body = [] then [] else [ascii "Content-Length: ", decimal r.body.length, crlf])
    ++ [crlf] ++ (if r.body = [] then [] else [r.body])

/-- The request as it stands on the wire. -/
def requestText (host : List UInt8) (r : Request) : List UInt8 :=
  httpMethodStr r.method ++ ascii " " ++ r.path ++ ascii " HTTP/1.1\r\nHost: " ++ host ++ crlf
    ++ r.headerLines.flatMap (· ++ crlf)
    ++ (if r.body = [] then [] else ascii "Content-Length: " ++ decimal r.body.length ++ crlf)
    ++ crlf ++ r.body

theorem flatten_requestPieces (host : List UInt8) (r : Request) :
    (requestPieces host r).flatten = requestText host r := by
  have hlines (ls : List (List UInt8)) : (ls.flatMap fun h => [h, crlf]).flatten = ls.flatMap (· ++ crlf) := by
    induction ls with
    | nil => rfl
    | cons h ls ih => rw [List.flatMap_cons, List.flatten_append, ih, List.flatMap_cons]; simp
  unfold requestPieces requestText
  rw [List.flatten_append, List.flatten_append, List.flatten_append, List.flatten_append, hlines]
  split
  · next hbody => simp [hbody]
  · simp

theorem Writer.writeRequest_eq (w : Writer) (num : NumArray) (host : List UInt8) (r : Request)
    (hbody : r.body.length < wordSize) : w.writeRequest num host r = w.putAll (requestPieces host r) := by
  unfold requestPieces writeRequest
  simp only [putAll_append, bind_assoc, foldlM_headerLines, numeral_eq num hbody]
  by_cases hempty : r.body = []
  · simp only [if_pos hempty, putAll_nil, putAll_singleton]
  · simp only [if_neg hempty, putAll_singleton]

/-- What is passed to `build_http_request`: views of objects. -/
structure RequestArgs where
  method : HttpMethod
  host : Buffer
  path : Buffer
  headerLines : List Buffer
  body : Buffer

namespace RequestArgs

def request (a : RequestArgs) : Request := ⟨a.method, a.path.bytes, a.headerLines.map Buffer.bytes, a.body.bytes⟩

theorem pieces_small (a : RequestArgs) : ∀ piece ∈ requestPieces a.host.bytes a.request, piece.length < 2 ^ 63 := by
  have hmethod : ∀ m, (httpMethodStr m).length < 2 ^ 63 := by
    intro m
    cases m with
    | get => decide
    | post => decide
    | delete => decide
    | put => decide
  have hcrlf : crlf.length < 2 ^ 63 := by decide
  have hnumeral : (decimal a.body.bytes.length).length < 2 ^ 63 := by
    have hdigits : a.body.bytes.length < 10 ^ 19 := a.body.small.trans (by decide)
    rw [decimal, List.length_map]
    exact ((Nat.length_toDigits_le_iff (by decide) (by decide)).mpr hdigits).trans_lt (by decide)
  have hlines : ∀ piece ∈ a.request.headerLines.flatMap (fun h => [h, crlf]), piece.length < 2 ^ 63 := by
    intro piece hpiece
    obtain ⟨line, hline, hpiece⟩ := List.mem_flatMap.mp hpiece
    obtain ⟨b, -, rfl⟩ := List.mem_map.mp hline
    rcases List.mem_pair.mp hpiece with rfl | rfl
    · exact b.small
    · exact hcrlf
  have hlength : ∀ piece ∈ (if a.request.body = [] then []
      else [ascii "Content-Length: ", decimal a.request.body.length, crlf]), piece.length < 2 ^ 63 := by
    split
    · exact fun _ h => absurd h List.not_mem_nil
    · simp only [List.forall_mem_cons]
      exact ⟨by decide, hnumeral, hcrlf, List.forall_mem_nil _⟩
  have hbody : ∀ piece ∈ (if a.request.body = [] then [] else [a.request.body]), piece.length < 2 ^ 63 := by
    split
    · exact fun _ h => absurd h List.not_mem_nil
    · exact List.forall_mem_singleton.mpr a.body.small
  have hline : ∀ piece ∈ [httpMethodStr a.method, ascii " ", a.path.bytes, ascii " HTTP/1.1\r\nHost: ", a.host.bytes, crlf],
      piece.length < 2 ^ 63 := by
    simp only [List.forall_mem_cons]
    exact ⟨hmethod _, by decide, a.path.small, by decide, a.host.small, hcrlf, List.forall_mem_nil _⟩
  simp only [requestPieces, List.forall_mem_append]
  exact ⟨⟨⟨⟨hline, hlines⟩, hlength⟩, List.forall_mem_singleton.mpr hcrlf⟩, hbody⟩

end RequestArgs

/-- **Building a request.** The request is written exactly if it fits, and otherwise nothing leaves the buffer; the numeral
of a length is the canonical one, and the parser of responses reads it back. -/
theorem buildHttpRequest_exact (dst : Buffer) (num : NumArray) (a : RequestArgs) :
    BuildsExactly dst.bytes (requestText a.host.bytes a.request)
      (Writer.buildHttpRequest dst.bytes num a.host.bytes a.request) ∧
    ∀ v < wordSize, numeral num v = some (decimal v) ∧ Numeral v (decimal v) ∧ parseDecLoop 0 (decimal v) = v := by
  have hbody : a.request.body.length < wordSize := a.body.small.trans (by decide)
  refine ⟨?_, fun v hv => ⟨numeral_eq num hv, decimal_numeral v, parseDecLoop_decimal hv⟩⟩
  rw [Writer.buildHttpRequest, Writer.writeRequest_eq _ num _ _ hbody, ← flatten_requestPieces]
  refine putAll_buildsExactly dst a.pieces_small fun hnil => ?_
  rw [flatten_requestPieces, requestText] at hnil
  have hend : crlf = [] := (List.append_eq_nil_iff.mp (List.append_eq_nil_iff.mp hnil).1).2
  cases hend

end Lepton.Http
