import Lepton.HttpBounds

/-! Termination of the chunk loops. Each iteration that continues moves the read cursor to
`data_start + chunk_sz + 2` modulo `2 ^ 64`. The cursor advances unless this sum reaches the modulus
and exceeds it by no more than the cursor itself; then the cursor comes back to, or before, the start
of the line it has just read. -/

namespace Lepton.Http

open Words Search

/-- The line at `rp` announces a size that brings the cursor back to `rp` or before it. -/
def Stuck (buf : List UInt8) (rp : Nat) : Prop :=
  ∃ lineEnd c, SizeLine buf rp lineEnd c ∧
    wordSize ≤ lineEnd + 2 + c + 2 ∧ lineEnd + 2 + c + 2 ≤ wordSize + rp

/-- The cursors the dry run visits. -/
abbrev DryVisits (buf : List UInt8) : Nat → Nat → Prop :=
  Relation.ReflTransGen fun rp rp' => dryStep buf rp = .next rp'

/-- The buffers and cursors the decoding loop visits. -/
abbrev DecodeVisits (bodyStart status : Nat) :
    List UInt8 × Nat × Nat → List UInt8 × Nat × Nat → Prop :=
  Relation.ReflTransGen fun x y =>
    decodeStep bodyStart status x.1 x.2.1 x.2.2 = .next y.1 y.2.1 y.2.2

/-- Both chunk loops advance their cursor at every iteration that continues, and the parser
returns. -/
structure Terminates (buf : List UInt8) : Prop where
  dry : ∀ bodyStart status scan, parseHead buf = .ready bodyStart status scan → scan.chunked = true →
    ∀ rp rp', DryVisits buf bodyStart rp → dryStep buf rp = .next rp' → rp < rp'
  decode : ∀ bodyStart status scan, parseHead buf = .ready bodyStart status scan →
    scan.chunked = true → (∃ fuel, dryRun buf fuel bodyStart = some true) →
    ∀ x y : List UInt8 × Nat × Nat, DecodeVisits bodyStart status (buf, bodyStart, bodyStart) x →
      decodeStep bodyStart status x.1 x.2.1 x.2.2 = .next y.1 y.2.1 y.2.2 → x.2.1 < y.2.1
  returns : ∃ fuel, parseHttpResponse fuel buf ≠ .spinning

/-- No size line the loops visit announces a size that, as the parser reads it, brings the cursor back. -/
def SizesAdvance (buf : List UInt8) : Prop :=
  ∀ bodyStart status scan, parseHead buf = .ready bodyStart status scan → scan.chunked = true →
    ∀ rp, Hops buf bodyStart rp → ¬ Stuck buf rp

section Progress

variable {buf : List UInt8} (hbuf : buf.length < 2 ^ 63)

include hbuf

/-- A hop goes forward exactly when its line is not stuck. -/
theorem hop_lt_iff {rp rp' : Nat} (h : Hop buf rp rp') : rp < rp' ↔ ¬ Stuck buf rp := by
  obtain ⟨lineEnd, c, hl, rfl, hle⟩ := h
  have hbound := find_bounds hl.line
  have hc := sizeLine_lt hl
  have hstuck : Stuck buf rp ↔
      wordSize ≤ lineEnd + 2 + c + 2 ∧ lineEnd + 2 + c + 2 ≤ wordSize + rp := by
    refine ⟨?_, fun h => ⟨lineEnd, c, hl, h⟩⟩
    rintro ⟨e, c', hl', h⟩
    obtain ⟨rfl, rfl⟩ := sizeLine_unique hl' hl
    exact h
  rw [hstuck]
  by_cases hwrap : lineEnd + 2 + c + 2 < wordSize
  · rw [Nat.mod_eq_of_lt hwrap]
    omega
  · have hmod : (lineEnd + 2 + c + 2) % wordSize = lineEnd + 2 + c + 2 - wordSize := by
      rw [Nat.mod_eq_sub_mod (by omega), Nat.mod_eq_of_lt]
      simp only [wordSize, wordMax] at *
      omega
    rw [hmod]
    omega

/-- A stuck line is always followed: its wrapped end offset passes the size check. -/
theorem stuck_hop {rp : Nat} (h : Stuck buf rp) : ∃ rp', Hop buf rp rp' := by
  obtain ⟨lineEnd, c, hl, hbig⟩ := h
  have hbound := find_bounds hl.line
  have hlen : crlf.length = 2 := rfl
  have hc := sizeLine_lt hl
  refine ⟨_, lineEnd, c, hl, rfl, ?_⟩
  have hmod : (lineEnd + 2 + c + 2) % wordSize = lineEnd + 2 + c + 2 - wordSize := by
    rw [Nat.mod_eq_sub_mod (by omega), Nat.mod_eq_of_lt]
    simp only [wordSize, wordMax] at *
    omega
  rw [hmod]
  simp only [wordSize, wordMax] at *
  omega

theorem dryVisits_iff {a rp : Nat} : DryVisits buf a rp ↔ Hops buf a rp := by
  have hrel : (fun rp rp' => dryStep buf rp = .next rp') = Hop buf := by
    funext rp rp'
    exact propext (dryStep_eq_next hbuf)
  unfold DryVisits Hops
  rw [hrel]

/-- With an advancing cursor the dry run ends before the cursor leaves the buffer. -/
theorem dryRun_returns {rp : Nat} (hadv : ∀ x, Hops buf rp x → ¬ Stuck buf x) (hrp : rp ≤ buf.length) :
    ∃ fuel present, dryRun buf fuel rp = some present := by
  induction hgap : buf.length - rp using Nat.strongRecOn generalizing rp with
  | _ gap ih =>
    cases hstep : dryStep buf rp with
    | stop present => exact ⟨1, present, by rw [dryRun, hstep]⟩
    | next rp' =>
      have hhop := (dryStep_eq_next hbuf).mp hstep
      have hlt := (hop_lt_iff hbuf hhop).mpr (hadv rp .refl)
      obtain ⟨-, -, -, -, hle⟩ := id hhop
      obtain ⟨fuel, present, hrun⟩ := ih (buf.length - rp') (by omega)
        (fun x hx => hadv x (.head hhop hx)) hle rfl
      exact ⟨fuel + 1, present, by rw [dryRun, hstep]; exact hrun⟩

/-- The decoding loop continues only over a size line the size check lets through. -/
theorem decodeStep_next_hop {b b' : List UInt8}
    {bodyStart status rp wp rp' wp' : Nat} (h : Agrees buf b bodyStart rp wp)
    (hstep : decodeStep bodyStart status b rp wp = .next b' rp' wp') : Hop buf rp rp' := by
  unfold decodeStep at hstep
  rw [h.find_eq le_rfl] at hstep
  split at hstep
  · cases hstep
  · rename_i lineEnd hline
    simp only [h.slice_eq, h.find_eq (find_bounds hline).1, cursor_eq hbuf hline] at hstep
    have hlen := h.length
    split_ifs at hstep with h1 h2 h3
    · split at hstep <;> cases hstep
    · split at hstep
      · cases hstep
      · cases hstep
        exact ⟨lineEnd, _, ⟨hline, rfl, h1, h2⟩, rfl, by omega⟩

/-- What the decoding loop visits: lines of the received buffer, none of them oversized. -/
theorem decodeVisits_agrees {bodyStart status : Nat} (hstart : bodyStart ≤ buf.length)
    {x : List UInt8 × Nat × Nat}
    (h : DecodeVisits bodyStart status (buf, bodyStart, bodyStart) x) :
    Agrees buf x.1 bodyStart x.2.1 x.2.2 ∧ Hops buf bodyStart x.2.1 := by
  induction h with
  | refl => exact ⟨⟨rfl, rfl, le_rfl, le_rfl, hstart⟩, .refl⟩
  | @tail x y _ hstep ih =>
    obtain ⟨hagree, hhops⟩ := ih
    have hhop := decodeStep_next_hop hbuf hagree hstep
    have hfit : ¬ Oversize buf x.2.1 := by
      intro hbig
      rw [decodeStep_oversize status hbuf hagree hhop hbig] at hstep
      cases hstep
    obtain ⟨b', wp', hstep', hagree'⟩ := decodeStep_hop status hbuf hagree hhop hfit
    rw [hstep'] at hstep
    cases hstep
    exact ⟨hagree', .tail hhops hhop⟩

/-- Once the dry run has returned, so does the parser: the decoding loop follows the same lines up to
the settling one, or stops at an oversized line. -/
theorem parseChunked_returns {bodyStart n : Nat} {present : Bool} (hstart : bodyStart ≤ buf.length)
    (status : Nat) (hdry : dryRun buf n bodyStart = some present) :
    ∃ fuel, parseChunked fuel buf bodyStart status ≠ .spinning := by
  have hagree : Agrees buf buf bodyStart bodyStart bodyStart := ⟨rfl, rfl, le_rfl, le_rfl, hstart⟩
  cases present with
  | false => exact ⟨n, by rw [parseChunked, hdry]; simp⟩
  | true =>
    obtain ⟨e, he, hset⟩ := (dryRun_true_iff hbuf).mp ⟨n, hdry⟩
    obtain ⟨m, out, hrun, hout⟩ :
        ∃ m out, decodeRun bodyStart status m buf bodyStart bodyStart = out ∧ out ≠ .spinning := by
      by_cases hbig : ∃ x, Hops buf bodyStart x ∧ Oversize buf x
      · obtain ⟨x, hx, hbig⟩ := hbig
        obtain ⟨m, hrun⟩ := decodeRun_faults status hbuf hx hbig he hset hagree
        exact ⟨m, .fault, hrun, by simp⟩
      · obtain ⟨m, r, b, hrun, -⟩ := decodeRun_fits status hbuf he hset
          (fun x hx hover => hbig ⟨x, hx, hover⟩) hagree
        exact ⟨m, .ret r b, hrun, by simp⟩
    refine ⟨max n m, ?_⟩
    rw [parseChunked, dryRun_mono hdry (le_max_left n m)]
    change decodeRun bodyStart status (max n m) buf bodyStart bodyStart ≠ .spinning
    rwa [decodeRun_mono status hrun hout (le_max_right n m)]

end Progress

/-- **Termination.** Both loops advance at every iteration and the parser returns, exactly when no
visited size line brings the cursor back. -/
theorem parseHttpResponse_terminates_iff (buf : Buffer) :
    Terminates buf.bytes ↔ SizesAdvance buf.bytes := by
  obtain ⟨buf, hbuf⟩ := buf
  change Terminates buf ↔ SizesAdvance buf
  constructor
  · intro h bodyStart status scan hhead hchunked rp hhops hstuck
    obtain ⟨rp', hhop⟩ := stuck_hop hbuf hstuck
    have hlt := h.dry _ _ _ hhead hchunked rp rp' ((dryVisits_iff hbuf).mpr hhops)
      ((dryStep_eq_next hbuf).mpr hhop)
    exact (hop_lt_iff hbuf hhop).mp hlt hstuck
  · intro hadv
    refine ⟨?_, ?_, ?_⟩
    · intro bodyStart status scan hhead hchunked rp rp' hvisits hstep
      exact (hop_lt_iff hbuf ((dryStep_eq_next hbuf).mp hstep)).mpr
        (hadv _ _ _ hhead hchunked rp ((dryVisits_iff hbuf).mp hvisits))
    · intro bodyStart status scan hhead hchunked _ x y hvisits hstep
      obtain ⟨-, -, -, hle⟩ := parseHead_ready hbuf hhead
      obtain ⟨hagree, hhops⟩ := decodeVisits_agrees hbuf hle hvisits
      exact (hop_lt_iff hbuf (decodeStep_next_hop hbuf hagree hstep)).mpr
        (hadv _ _ _ hhead hchunked _ hhops)
    · cases hhead : parseHead buf with
      | fault => exact absurd hhead (parseHead_ne_fault hbuf)
      | incomplete => exact ⟨0, by rw [parseHttpResponse, hhead]; simp⟩
      | ready bodyStart status scan =>
        obtain ⟨-, -, -, hle⟩ := parseHead_ready hbuf hhead
        simp only [parseHttpResponse, hhead]
        cases hchunked : scan.chunked with
        | false =>
          refine ⟨0, ?_⟩
          simp only [parseSized, Bool.false_eq_true, if_false]
          split_ifs <;> simp
        | true =>
          obtain ⟨n, present, hdry⟩ := dryRun_returns hbuf (hadv _ _ _ hhead hchunked) hle
          simp only [if_true]
          exact parseChunked_returns hbuf hle status hdry

/-- A chunked response whose size line sends the cursor back to its own start. -/
def spinningResponse : List UInt8 :=
  ascii "HTTP/1.1 200 OK\r\nTransfer-Encoding: chunked\r\n\r\nFFFFFFFFFFFFFFEC\r\n"

theorem spinningResponse_dryRun (fuel : Nat) : dryRun spinningResponse fuel 47 = none := by
  have hstep : dryStep spinningResponse 47 = .next 47 := by decide
  induction fuel with
  | zero => rfl
  | succ fuel ih =>
    rw [dryRun, hstep]
    exact ih

/-- On the spinning response no number of iterations is enough. -/
theorem spinningResponse_runs_forever : ¬ Terminates spinningResponse := by
  intro h
  obtain ⟨fuel, hret⟩ := h.returns
  have hhead : parseHead spinningResponse = .ready 47 200 ⟨true, wordMax⟩ := by decide
  apply hret
  simp only [parseHttpResponse, hhead, parseChunked, spinningResponse_dryRun, if_true]

end Lepton.Http
