import Lepton.Loops
import Lepton.HttpExact

/-! Streams of responses. The chunk loops hold nothing but their cursor, so the parser returns within one turn for
every place of the buffer, or never; and with that many turns it reads the first of a sequence of responses
exactly, whether this has a body or not. -/

namespace Lepton.Http

open Words Search

/-! ### The turns of the parser -/

/-- A turn of the dry run. -/
def dryTurn (buf : List UInt8) (rp : Nat) : Bool ⊕ Nat :=
  match dryStep buf rp with
  | .stop allPresent => .inl allPresent
  | .next rp' => .inr rp'

theorem dryRun_eq_run (buf : List UInt8) (n rp : Nat) : dryRun buf n rp = Loops.run (dryTurn buf) n rp := by
  induction n generalizing rp with
  | zero => rfl
  | succ n ih =>
    rw [dryRun]
    split
    · next h => rw [Loops.run_returns (show dryTurn buf rp = .inl _ by rw [dryTurn, h])]
    · next h => rw [ih, Loops.run_moves (show dryTurn buf rp = .inr _ by rw [dryTurn, h])]

section Turns

variable {buf : List UInt8} (hbuf : buf.length < 2 ^ 63)

include hbuf

theorem dryRun_within {n rp : Nat} {present : Bool} (hrp : rp ≤ buf.length) (h : dryRun buf n rp = some present) :
    dryRun buf (buf.length + 1) rp = some present := by
  have hclosed : ∀ x ∈ Finset.range (buf.length + 1), ∀ y, dryTurn buf x = .inr y → y ∈ Finset.range (buf.length + 1) := by
    intro x _ y hstep
    have hnext : dryStep buf x = .next y := by
      unfold dryTurn at hstep
      split at hstep
      · cases hstep
      · next h =>
        cases hstep
        exact h
    obtain ⟨_, _, -, -, hle⟩ := (dryStep_eq_next hbuf).mp hnext
    exact Finset.mem_range.mpr (Nat.lt_succ_of_le hle)
  rw [dryRun_eq_run] at h ⊢
  have hrun := Loops.run_card hclosed (Finset.mem_range.mpr (Nat.lt_succ_of_le hrp)) h
  rwa [Finset.card_range] at hrun

/-- The decoding loop takes no more turns than the dry run. -/
theorem decodeRun_ne_spinning {n rp wp bodyStart status : Nat} {b : List UInt8} (hagree : Agrees buf b bodyStart rp wp)
    (h : dryRun buf n rp = some true) : decodeRun bodyStart status n b rp wp ≠ .spinning := by
  induction n generalizing rp wp b with
  | zero => cases h
  | succ n ih =>
    rw [dryRun] at h
    rw [decodeRun]
    split at h
    · next present hstep =>
      cases h
      obtain ⟨r, hdecode, -⟩ := decodeStep_settles status hbuf hagree (dryStep_eq_stop_true.mp hstep)
      rw [hdecode]
      intro h
      cases h
    · next rp' hstep =>
      have hhop := (dryStep_eq_next hbuf).mp hstep
      by_cases hbig : Oversize buf rp
      · rw [decodeStep_oversize status hbuf hagree hhop hbig]
        intro h
        cases h
      · obtain ⟨b', wp', hdecode, hagree'⟩ := decodeStep_hop status hbuf hagree hhop hbig
        rw [hdecode]
        exact ih hagree' h

/-- **A parser that returns does so within one turn for every place of the buffer.** -/
theorem parseHttpResponse_within {n : Nat} {out : Outcome} (h : parseHttpResponse n buf = out) (hout : out ≠ .spinning) :
    parseHttpResponse (buf.length + 1) buf = out := by
  have hreturns : parseHttpResponse (buf.length + 1) buf ≠ .spinning := by
    rw [parseHttpResponse] at h ⊢
    split at h
    · intro h
      cases h
    · intro h
      cases h
    · next bodyStart status scan hhead =>
      obtain ⟨-, -, -, hstart⟩ := parseHead_ready hbuf hhead
      split_ifs at h ⊢
      · rw [parseChunked] at h ⊢
        split at h
        · exact absurd h.symm hout
        · next hdry =>
          rw [dryRun_within hbuf hstart hdry]
          intro h
          cases h
        · next hdry =>
          have hdry := dryRun_within hbuf hstart hdry
          rw [hdry]
          exact decodeRun_ne_spinning hbuf ⟨rfl, rfl, le_rfl, le_rfl, hstart⟩ hdry
      · rw [h]
        exact hout
  -- with the larger number of turns both runs agree
  have hmore := parseHttpResponse_mono rfl hreturns (Nat.le_max_left (buf.length + 1) n)
  rw [← hmore]
  exact parseHttpResponse_mono h hout (Nat.le_max_right (buf.length + 1) n)

theorem ParsesTo.within {out : Outcome} (h : ParsesTo buf out) (hout : out ≠ .spinning) :
    parseHttpResponse (buf.length + 1) buf = out := by
  obtain ⟨n, hn⟩ := h
  exact parseHttpResponse_within hbuf (hn n le_rfl) hout

end Turns

/-! ### Responses with and without a body -/

/-- A response without a framing header, and so without a body. -/
structure BareResponse extends HeaderBlock where
  unframed : ∀ l ∈ headers, istartsWith l kContentLength = false ∧ istartsWith l kTransferEncoding = false

theorem BareResponse.scan_headers (R : BareResponse) : R.headers.foldl scanLine {} = {} := by
  have hfold (ls : List (List UInt8)) (h : ∀ l ∈ ls, istartsWith l kContentLength = false ∧
      istartsWith l kTransferEncoding = false) : ls.foldl scanLine {} = {} := by
    induction ls with
    | nil => rfl
    | cons l ls ih =>
      obtain ⟨hl, hrest⟩ := List.forall_mem_cons.mp h
      rw [List.foldl_cons, scanLine, hl.1, hl.2]
      exact ih hrest
  exact hfold _ R.unframed

/-- A well-formed response. -/
inductive Reply where
  | framed (R : Response)
  | bare (R : BareResponse)

namespace Reply

def encode : Reply → List UInt8
  | framed R => R.encode
  | bare R => R.head

def status : Reply → Nat
  | framed R => R.status
  | bare R => R.status

def body : Reply → List UInt8
  | framed R => R.framing.decoded
  | bare _ => []

/-- The chunks are measured right in every buffer. -/
def SizesFit : Reply → Prop
  | framed R => R.SizesFit
  | bare _ => True

/-- What `on_response` is to see of it. -/
def answer (R : Reply) : Nat × List UInt8 := (R.status, R.body)

theorem encode_ne_nil (R : Reply) : R.encode ≠ [] := by
  intro h
  have hlen (H : HeaderBlock) : 0 < H.head.length := by
    rw [H.head_length]
    omega
  cases R with
  | framed R =>
    have hpos := hlen R.block
    rw [show R.block.head = [] from (List.append_eq_nil_iff.mp h).1] at hpos
    exact absurd hpos (by decide)
  | bare R =>
    have hpos := hlen R.toHeaderBlock
    rw [show R.head = [] from h] at hpos
    exact absurd hpos (by decide)

/-- The parser returns this response, and leaves the bytes behind it alone. -/
structure ReadFrom (R : Reply) (buf : List UInt8) (r : HttpResponseView) (buf' : List UInt8) : Prop where
  complete : r.complete = true
  status : r.status = R.status
  consumed : r.consumed = R.encode.length
  body : r.bodyBytes buf' = R.body
  length : buf'.length = buf.length
  behind : buf'.drop R.encode.length = buf.drop R.encode.length

theorem read_bare (R : BareResponse) {suffix buf : List UInt8} (hpre : buf <+: R.head ++ suffix)
    (hfull : R.head.length ≤ buf.length) (hbuf : buf.length < 2 ^ 63) :
    ∃ r buf', ParsesTo buf (.ret r buf') ∧ (bare R).ReadFrom buf r buf' := by
  obtain ⟨rest, rfl⟩ : R.head <+: buf := List.prefix_of_prefix_length_le (List.prefix_append _ _) hpre hfull
  have hadd : add R.head.length 0 = R.head.length := by
    rw [add_of_lt]
    · rfl
    · simp only [wordSize]
      omega
  refine ⟨{ complete := true, status := R.status, body := some (R.head.length, 0), consumed := R.head.length },
    R.head ++ rest, ⟨0, fun fuel _ => ?_⟩, rfl, rfl, rfl, ?_, rfl, rfl⟩
  · have hsize : ¬ (R.head ++ rest).length < R.head.length := by omega
    rw [parseHttpResponse, R.parseHead_head rest hbuf, R.scan_headers]
    simp only [Bool.false_eq_true, if_false, parseSized, if_true, hadd, if_neg hsize]
  · change ((R.head ++ rest).drop R.head.length).take 0 = []
    rw [List.take_zero]

/-- **The first response of a stream is read exactly.** The parser waits while it is incomplete, and returns it
once all of it is there. -/
theorem read (R : Reply) (hfit : R.SizesFit) {suffix buf : List UInt8} (hpre : buf <+: R.encode ++ suffix)
    (hbuf : buf.length < 2 ^ 63) :
    (buf.length < R.encode.length →
      ∃ r, parseHttpResponse (buf.length + 1) buf = .ret r buf ∧ r.complete = false) ∧
    (R.encode.length ≤ buf.length →
      ∃ r buf', parseHttpResponse (buf.length + 1) buf = .ret r buf' ∧ R.ReadFrom buf r buf') := by
  have hwaits (h : Waits buf) : ∃ r, parseHttpResponse (buf.length + 1) buf = .ret r buf ∧ r.complete = false := by
    obtain ⟨r, hparse, hr⟩ := h
    exact ⟨r, hparse.within hbuf nofun, hr⟩
  cases R with
  | framed R =>
    obtain ⟨hshort, hfull⟩ := decodes_framed hfit hpre hbuf
    refine ⟨fun h => hwaits (hshort h), fun h => ?_⟩
    obtain ⟨r, buf', hparse, hcomplete, hstatus, hconsumed, hbody, hlength, hbehind⟩ := hfull h
    exact ⟨r, buf', hparse.within hbuf nofun, hcomplete, hstatus, hconsumed, hbody, hlength, hbehind⟩
  | bare R =>
    refine ⟨fun h => hwaits (R.waits_short hpre h), fun h => ?_⟩
    obtain ⟨r, buf', hparse, hread⟩ := read_bare R hpre h hbuf
    exact ⟨r, buf', hparse.within hbuf nofun, hread⟩

end Reply

end Lepton.Http
