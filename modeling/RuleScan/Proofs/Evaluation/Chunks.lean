import RuleScan.Operator.Builtin
import RuleScan.Proofs.Evaluation.Extracting

/-!
# Ranges in chunks

A source need not deliver what its size promises, and it may refuse any chunk of any range.  The
positions and lengths of the chunks are known beforehand, so it can be said of a source alone
whether it delivers a range or refuses it, and with which error; one of the two is always so.

A range that is delivered in chunks is delivered as a whole, whatever its length has to do with
that of a chunk.  A range is refused with the error of its first chunk that is.

## Main results

* `Source.delivers_or_refuses` — a range is delivered or refused.
* `Source.delivered_or_refused` — so all ranges are delivered, or there is a first one that is not.
* `Builtin.readRange_of_delivers`, `Builtin.readRange_of_refuses` — reading a range.
-/

namespace RuleScan

open Builtin

/-! ## Ranges that are delivered or refused -/

namespace Source

/-- Whatever the source delivers is what a file holds, and it promises all of the file. -/
structure Serves (source : Source) (d : Bytes) : Prop where
  size : source.size = d.length
  faithful : ∀ {offset length bytes}, offset + length ≤ d.length →
    source.read offset length = .ok bytes → bytes = d.extract offset (offset + length)

/-- What a source makes of a chunk of a range; the last chunk ends with the range. -/
def chunk (source : Source) (start stop k : Nat) : Except Error Bytes :=
  source.read (start + k * chunkSize) (min (stop - (start + k * chunkSize)) chunkSize)

/-- Every chunk of a range is delivered. -/
def Delivers (source : Source) (start stop : Nat) : Prop :=
  ∀ k, start + k * chunkSize < stop → ∃ bytes, source.chunk start stop k = .ok bytes

/-- A chunk of a range is refused, after those before it were delivered. -/
def Refuses (source : Source) (start stop : Nat) (cause : Error) : Prop :=
  ∃ k, start + k * chunkSize < stop ∧ source.chunk start stop k = .error cause ∧
    ∀ j < k, ∃ bytes, source.chunk start stop j = .ok bytes

variable {source : Source} {d b : Bytes} {start stop : Nat} {cause : Error}

/-- The beginning of a file serves the file as far as it goes. -/
theorem serves_claiming (name : String) (h : b <+: d) : (claiming name d.length b).Serves d := by
  refine ⟨rfl, fun {offset length bytes} hrange hread => ?_⟩
  have hbegins : piece b offset length <+: piece d offset length := (h.drop offset).take length
  have hlength := length_extract hrange
  rw [← piece_eq_extract] at hlength ⊢
  simp only [claiming, if_pos hrange] at hread
  split at hread
  · next hwhole =>
    cases hread
    exact hbegins.eq_of_length (hwhole.trans hlength.symm)
  · cases hread

/-! ## Chunk by chunk -/

theorem chunk_zero (source : Source) (start stop : Nat) :
    source.chunk start stop 0 = source.read start (min (stop - start) chunkSize) := by
  rw [chunk, Nat.zero_mul, Nat.add_zero]

/-- Behind the first chunk the chunks are those of the rest of the range. -/
theorem chunk_succ (source : Source) (start stop k : Nat) :
    source.chunk start stop (k + 1) = source.chunk (start + chunkSize) stop k := by
  have hoffset : start + (k + 1) * chunkSize = start + chunkSize + k * chunkSize := by
    rw [Nat.add_mul, Nat.one_mul]
    omega
  rw [chunk, chunk, hoffset]

theorem Delivers.first (h : source.Delivers start stop) (hlt : start < stop) :
    ∃ bytes, source.read start (min (stop - start) chunkSize) = .ok bytes := by
  rw [← chunk_zero]
  exact h 0 (by omega)

theorem Delivers.rest (h : source.Delivers start stop) :
    source.Delivers (start + min (stop - start) chunkSize) stop := by
  intro k hk
  have hfull : min (stop - start) chunkSize = chunkSize := by omega
  rw [hfull] at hk ⊢
  rw [← chunk_succ]
  apply h
  rw [Nat.add_mul, Nat.one_mul]
  omega

/-- The first chunk of a range that is refused is refused, or some chunk of the rest is. -/
theorem Refuses.cases (h : source.Refuses start stop cause) :
    source.read start (min (stop - start) chunkSize) = .error cause ∨
      (∃ bytes, source.read start (min (stop - start) chunkSize) = .ok bytes) ∧
        source.Refuses (start + min (stop - start) chunkSize) stop cause := by
  obtain ⟨k, hk, hcause, hbefore⟩ := h
  rw [← chunk_zero]
  cases k with
  | zero => exact .inl hcause
  | succ k =>
    rw [Nat.add_mul, Nat.one_mul] at hk
    have hfull : min (stop - start) chunkSize = chunkSize := by omega
    rw [chunk_succ] at hcause
    refine .inr ⟨hbefore 0 (by omega), k, ?_, ?_, fun j hj => ?_⟩
    · omega
    · rwa [hfull]
    · rw [hfull, ← chunk_succ]
      exact hbefore (j + 1) (by omega)

theorem Refuses.lt (h : source.Refuses start stop cause) : start < stop := by
  obtain ⟨k, hk, -⟩ := h
  omega

/-- The first chunk that is not delivered decides. -/
theorem delivers_or_refuses (source : Source) (start stop : Nat) :
    source.Delivers start stop ∨ ∃ cause, source.Refuses start stop cause := by
  classical
  by_cases h : ∃ k, start + k * chunkSize < stop ∧ ∀ bytes, source.chunk start stop k ≠ .ok bytes
  · obtain ⟨hk, hnot⟩ := Nat.find_spec h
    cases hchunk : source.chunk start stop (Nat.find h) with
    | ok bytes => exact absurd hchunk (hnot bytes)
    | error cause =>
      refine .inr ⟨cause, Nat.find h, hk, hchunk, fun j hj => ?_⟩
      have hbefore := Nat.find_min h hj
      have hstep : j * chunkSize ≤ Nat.find h * chunkSize := Nat.mul_le_mul_right _ hj.le
      push Not at hbefore
      exact hbefore (by omega)
  · push Not at h
    exact .inl h

/-- The induction is on the ranges, up to the first one that is refused. -/
theorem delivered_or_refused (source : Source) (ranges : List (Nat × Nat)) :
    (∀ q ∈ ranges, source.Delivers q.1 q.2) ∨
      ∃ before q rest cause, ranges = before ++ q :: rest ∧
        (∀ q' ∈ before, source.Delivers q'.1 q'.2) ∧ source.Refuses q.1 q.2 cause := by
  induction ranges with
  | nil => exact .inl nofun
  | cons r ranges ih =>
    rcases source.delivers_or_refuses r.1 r.2 with hfirst | ⟨cause, hrefuses⟩
    · rcases ih with hothers | ⟨before, q, rest, cause, rfl, hbefore, hrefuses⟩
      · exact .inl (List.forall_mem_cons.2 ⟨hfirst, hothers⟩)
      · exact .inr ⟨r :: before, q, rest, cause, rfl,
          List.forall_mem_cons.2 ⟨hfirst, hbefore⟩, hrefuses⟩
    · exact .inr ⟨[], r, ranges, cause, rfl, nofun, hrefuses⟩

/-- A range of a file that the source delivers. -/
structure IsDelivered (source : Source) (d : Bytes) (r : Nat × Nat) : Prop where
  ordered : r.1 ≤ r.2
  within : r.2 ≤ d.length
  delivers : source.Delivers r.1 r.2

end Source

namespace Step

variable {s : Session} {offset length : Nat}

theorem read_of_ok {bytes : Bytes} (h : s.source.read offset length = .ok bytes) :
    read offset length s = .ok bytes s := by
  rw [read_eq, h]
  rfl

theorem read_of_error {cause : Error} (h : s.source.read offset length = .error cause) :
    read offset length s = .error cause s := by
  rw [read_eq, h]
  rfl

end Step

namespace Builtin

variable {s : Session} {d : Bytes} {start stop : Nat} {cause : Error}

/-- Neighbouring ranges together are one range. -/
theorem extract_append_extract (d : Bytes) {i j k : Nat} (hij : i ≤ j) (hjk : j ≤ k) :
    d.extract i j ++ d.extract j k = d.extract i k := by
  have hdrop : d.drop j = (d.drop i).drop (j - i) := by
    rw [List.drop_drop]
    congr 1
    omega
  have hlength : k - i = (j - i) + (k - j) := by omega
  rw [List.extract_eq_take_drop, List.extract_eq_take_drop, List.extract_eq_take_drop, hdrop,
    hlength, List.take_add]

/-- The induction is on the chunks: each of them brings its own bytes. -/
theorem readRange_of_delivers (hserves : s.source.Serves d) (hle : start ≤ stop)
    (hstop : stop ≤ d.length) (h : s.source.Delivers start stop) :
    readRange start stop s = .ok (d.extract start stop) s := by
  fun_induction readRange start stop with
  | case1 start hlt length ih =>
    obtain ⟨bytes, hbytes⟩ := h.first hlt
    have hfaithful := hserves.faithful (by omega) hbytes
    have hrest := ih (by omega) h.rest
    rw [Step.bind_of_ok (Step.read_of_ok hbytes), Step.bind_of_ok hrest, hfaithful]
    show EStateM.Result.ok _ s = _
    rw [extract_append_extract d (by omega) (by omega)]
  | case2 start hge =>
    obtain rfl : start = stop := by omega
    rw [List.extract_eq_take_drop, Nat.sub_self, List.take_zero]
    rfl

/-- The induction is on the chunks up to the one that is refused. -/
theorem readRange_of_refuses (h : s.source.Refuses start stop cause) :
    readRange start stop s = .error cause s := by
  fun_induction readRange start stop with
  | case1 start hlt length ih =>
    cases h.cases with
    | inl hfirst => exact Step.bind_of_error (Step.read_of_error hfirst) _
    | inr hlater =>
      obtain ⟨⟨bytes, hbytes⟩, hrest⟩ := hlater
      rw [Step.bind_of_ok (Step.read_of_ok hbytes)]
      exact Step.bind_of_error (ih hrest) _
  | case2 start hge => exact absurd h.lt hge

end Builtin

end RuleScan
