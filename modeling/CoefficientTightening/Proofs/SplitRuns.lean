import CoefficientTightening.Proofs.RoundCalls

/-! A run in two parts. The calls of the second part are those that the whole run makes after the
rounds of the first part, because its presolvers and its data start where the first part left them.
Two things are done again at the cut: the data is checked, which the last call before the cut has
passed already, and rounds are counted from zero, which the limits of the parts make up for. A cut
behind a round that found nothing is a different matter. There the whole run has ended, and so has
the first part. -/
namespace CoefficientTightening

variable {P D E α : Type}

namespace Presolving

variable {ops : Presolving P D E α} {validates : Bool} {presolvers : List P} {data : D}
  {s : State P D} {k limit : Nat}

/-! ### Calls after a cut -/

theorem stateAt_add (ops : Presolving P D E α) (s : State P D) (n k : Nat) :
    ops.stateAt s (n + k) = ops.stateAt (ops.stateAt s n) k := by
  rw [stateAt, Nat.add_comm, Function.iterate_add_apply, stateAt, stateAt]

theorem callsAt_add (ops : Presolving P D E α) (s : State P D) (n k : Nat) :
    ops.callsAt s (n + k) = ops.callsAt (ops.stateAt s n) k := by
  rw [callsAt, stateAt_add, callsAt]

theorem foundBefore_add (ops : Presolving P D E α) (s : State P D) (n k : Nat) :
    ops.foundBefore s (n + k) =
      ops.foundBefore s n ++ ops.foundBefore (ops.stateAt s n) k := by
  rw [foundBefore, List.range_add, List.flatMap_append, List.flatMap_map, foundBefore, foundBefore]
  simp only [callsAt_add]

theorem isQuiet_eq_false_iff :
    ops.isQuiet s k = false ↔ ∃ call ∈ ops.callsAt s k, call.found ≠ [] := by
  rw [isQuiet, List.all_eq_false]
  simp only [List.isEmpty_iff, ne_eq]

@[simp] theorem roundCount_zero (ops : Presolving P D E α) (s : State P D) :
    ops.roundCount s 0 = 0 :=
  Nat.min_zero _

/-- Only the last round can be quiet. -/
theorem isQuiet_eq_false (h : k + 1 < ops.roundCount s limit) : ops.isQuiet s k = false := by
  induction limit generalizing s k with
  | zero => simp at h
  | succ limit ih =>
    rw [roundCount_succ] at h
    cases hquiet : ops.isQuiet s 0 with
    | true =>
      rw [hquiet, if_pos rfl] at h
      omega
    | false =>
      rw [hquiet, if_neg Bool.false_ne_true] at h
      cases k with
      | zero => exact hquiet
      | succ k =>
        rw [isQuiet, callsAt_succ]
        exact ih (Nat.lt_of_succ_lt_succ h)

theorem roundCount_add {n : Nat} (h : ∀ k < n, ops.isQuiet s k = false) (m : Nat) :
    ops.roundCount s (n + m) = n + ops.roundCount (ops.stateAt s n) m := by
  induction n generalizing s with
  | zero => rw [Nat.zero_add, Nat.zero_add]; rfl
  | succ n ih =>
    have hlater : ∀ k < n, ops.isQuiet (ops.next s) k = false := fun k hk => by
      rw [isQuiet, ← callsAt_succ]
      exact h (k + 1) (Nat.succ_lt_succ hk)
    rw [Nat.add_right_comm, roundCount_succ, h 0 (Nat.succ_pos n), if_neg Bool.false_ne_true,
      ih hlater, stateAt_succ]
    omega

/-! ### Runs without a failure -/

/-- A round that does not fail has no failing call. -/
theorem passed_of_applyAll (h : (ops.applyAll validates presolvers data).failure = none) :
    ∀ call ∈ ops.calls presolvers data, ops.fault? validates call = none := by
  induction presolvers generalizing data with
  | nil => exact fun call hcall => absurd hcall List.not_mem_nil
  | cons presolver rest ih =>
    cases hfirst : ops.fault? validates (ops.apply presolver data) with
    | some e =>
      rw [applyAll_cons_of_fault hfirst] at h
      cases h
    | none =>
      obtain ⟨-, -, -, hfailure⟩ := applyAll_cons_of_passed rest hfirst
      intro call hcall
      obtain rfl | hcall := List.mem_cons.mp hcall
      · exact hfirst
      · exact ih (hfailure.symm.trans h) call hcall

/-- A round that does not fail leaves the state that its calls leave, and reports nothing exactly if
it is quiet. -/
theorem applyAll_of_failure_eq_none
    (h : (ops.applyAll validates s.presolvers s.data).failure = none) :
    let a := ops.applyAll validates s.presolvers s.data
    ops.next s = ⟨a.presolvers, a.data⟩ ∧ a.reductions.isEmpty = ops.isQuiet s 0 := by
  obtain ⟨hpresolvers, hdata, hreductions, -⟩ :=
    applyAll_of_passed s.presolvers s.data (passed_of_applyAll h)
  refine ⟨?_, ?_⟩
  · rw [next, ← hpresolvers, ← hdata]
  · rw [hreductions]
    exact isEmpty_flatMap_found _

/-- Rounds that do not fail have no failing call. -/
theorem passed_of_repeatRounds {number : Nat}
    (h : (ops.repeatRounds validates limit number s.presolvers s.data).failure = none) :
    ∀ k < ops.roundCount s limit, ∀ call ∈ ops.callsAt s k,
      ops.fault? validates call = none := by
  induction limit generalizing number s with
  | zero => exact fun k hk => absurd hk (by simp)
  | succ limit ih =>
    cases hround : (ops.applyAll validates s.presolvers s.data).failure with
    | some e =>
      obtain ⟨-, -, -, hfailed⟩ := repeatRounds_succ_of_failed limit number hround
      rw [hfailed] at h
      cases h
    | none =>
      obtain ⟨hnext, hempty⟩ := applyAll_of_failure_eq_none hround
      intro k hk call hcall
      rw [roundCount_succ] at hk
      cases k with
      | zero => exact passed_of_applyAll hround call hcall
      | succ k =>
        cases hquiet : ops.isQuiet s 0 with
        | true =>
          rw [hquiet, if_pos rfl] at hk
          omega
        | false =>
          rw [hquiet, if_neg Bool.false_ne_true] at hk
          obtain ⟨-, -, -, -, hlater⟩ :=
            repeatRounds_succ_of_found limit number hround (hempty.trans hquiet)
          rw [callsAt_succ, hnext] at hcall
          rw [hnext] at hk
          exact ih (hlater.symm.trans h) k (Nat.lt_of_succ_lt_succ hk) call hcall

/-- Behind a call that passed, the data passes the check. -/
theorem checkIf_of_passed {call : Application P D E α} (h : ops.fault? validates call = none) :
    ops.checkIf validates call.data = none := by
  unfold fault? at h
  split at h
  · cases h
  · exact h

/-- A round in which all calls passed leaves data that passes the check, if it has a call. -/
theorem checkIf_stateAt_succ (hcalls : ops.callsAt s k ≠ [])
    (hpassed : ∀ call ∈ ops.callsAt s k, ops.fault? validates call = none) :
    ops.checkIf validates (ops.stateAt s (k + 1)).data = none := by
  obtain ⟨before, last, hlast⟩ := List.eq_nil_or_concat (ops.callsAt s k) |>.resolve_left hcalls
  have hdata : (ops.stateAt s (k + 1)).data = last.data := by
    have hstate : ops.stateAt s (k + 1) = ops.next (ops.stateAt s k) :=
      Function.iterate_succ_apply' _ _ _
    change ops.calls (ops.stateAt s k).presolvers (ops.stateAt s k).data = _ at hlast
    rw [hstate, next, hlast, dataAfter, List.concat_eq_append, List.foldl_append, List.foldl_cons,
      List.foldl_nil]
  rw [hdata]
  refine checkIf_of_passed (hpassed last ?_)
  rw [hlast, List.concat_eq_append]
  exact List.mem_append_right _ List.mem_cons_self

/-- Rounds that come to a quiet one, or fail before it, do not depend on the limit beyond it. -/
theorem repeatRounds_add_of_quiet {n : Nat} (validates : Bool) (number m : Nat)
    (h : ∃ k < n, ops.isQuiet s k = true) :
    ops.repeatRounds validates (n + m) number s.presolvers s.data =
      ops.repeatRounds validates n number s.presolvers s.data := by
  induction n generalizing number s with
  | zero => exact absurd h (by simp)
  | succ n ih =>
    rw [Nat.add_right_comm, repeatRounds, repeatRounds]
    cases hround : (ops.applyAll validates s.presolvers s.data).failure with
    | some e => simp only [Option.isSome_some, if_true]
    | none =>
      obtain ⟨hnext, hempty⟩ := applyAll_of_failure_eq_none hround
      simp only [hempty, Option.isSome_none, Bool.false_eq_true, if_false]
      cases hquiet : ops.isQuiet s 0 with
      | true => rfl
      | false =>
        obtain ⟨k, hk, hfirst⟩ := h
        have hlater : ∃ k' < n, ops.isQuiet (ops.next s) k' = true := by
          cases k with
          | zero => exact absurd (hfirst.symm.trans hquiet) (by decide)
          | succ k =>
            refine ⟨k, Nat.lt_of_succ_lt_succ hk, ?_⟩
            rw [isQuiet, ← callsAt_succ]
            exact hfirst
        rw [hnext] at hlater
        rw [if_neg Bool.false_ne_true, if_neg Bool.false_ne_true, ih (number + 1) hlater]

end Presolving

/-! ### A run and its parts -/

namespace Schedule

open Presolving

variable {ops : Presolving P D E α} {schedule : Schedule P α} {data : D} {s : State P D}
  {limit rounds : Nat}

/-- A run without a failure started, and none of its calls failed. -/
theorem passed_of_run (hs : s = ⟨schedule.presolvers, data⟩)
    (h : (schedule.run ops (some limit) data).failure = none) :
    ops.checkIf schedule.validates data = none ∧ ∀ k < ops.roundCount s limit,
      ∀ call ∈ ops.callsAt s k, ops.fault? schedule.validates call = none := by
  subst hs
  cases hvalid : ops.checkIf schedule.validates data with
  | some e =>
    rw [run_of_invalid hvalid] at h
    cases h
  | none =>
    refine ⟨rfl, ?_⟩
    rw [run_of_valid hvalid] at h
    exact passed_of_repeatRounds (s := ⟨schedule.presolvers, data⟩) h

/-- The rounds of a run that no call fails, when their number is known. -/
theorem run_of_roundCount (hs : s = ⟨schedule.presolvers, data⟩)
    (hrounds : ops.roundCount s limit = rounds)
    (hvalid : ops.checkIf schedule.validates data = none)
    (hpassed : ∀ k < rounds, ∀ call ∈ ops.callsAt s k, ops.fault? schedule.validates call = none) :
    let run := schedule.run ops (some limit) data
    run.failure = none ∧ run.data = (ops.stateAt s rounds).data ∧
      run.schedule =
        { schedule with
          presolvers := (ops.stateAt s rounds).presolvers
          applied := schedule.applied ++ ops.foundBefore s rounds
          rounds := schedule.rounds + rounds } := by
  subst hs hrounds
  exact run_of_passed hvalid hpassed

/-- A run that comes to a quiet round, or fails before it, does not depend on a later limit. -/
theorem run_add_of_quiet {n : Nat} (schedule : Schedule P α) (m : Nat) (data : D)
    (h : ∃ k < n, ops.isQuiet ⟨schedule.presolvers, data⟩ k = true) :
    schedule.run ops (some (n + m : Nat)) data = schedule.run ops (some n) data := by
  have hrounds := repeatRounds_add_of_quiet schedule.validates 1 m h
  unfold run
  simp only [Option.getD_some, Int.toNat_natCast, hrounds]

/-- Cut behind rounds that all find something, the second part makes the calls that are left. -/
theorem run_of_parts {n m : Nat}
    (hwhole : (schedule.run ops (some (n + m : Nat)) data).failure = none)
    (hfound : ∀ k < n, ops.isQuiet ⟨schedule.presolvers, data⟩ k = false) :
    let whole := schedule.run ops (some (n + m : Nat)) data
    let first := schedule.run ops (some n) data
    let second := first.schedule.run ops (some m) first.data
    first.failure = none ∧ second.failure = none ∧ second.data = whole.data ∧
      second.schedule = whole.schedule := by
  intro whole first second
  let start : State P D := ⟨schedule.presolvers, data⟩
  let cut := ops.stateAt start n
  have hcount : ops.roundCount start (n + m) = n + ops.roundCount cut m := roundCount_add hfound m
  obtain ⟨hvalid, hpassed⟩ := passed_of_run (s := start) rfl hwhole
  rw [hcount] at hpassed
  obtain ⟨-, hdata, hschedule⟩ := run_of_roundCount rfl hcount hvalid hpassed
  obtain ⟨hfailure₁, hdata₁, hschedule₁⟩ :=
    run_of_roundCount (s := start) rfl (roundCount_eq_limit hfound) hvalid fun k hk =>
      hpassed k (Nat.lt_add_right _ hk)
  have hcut : cut = ⟨first.schedule.presolvers, first.data⟩ := by
    rw [show first.schedule = _ from hschedule₁, show first.data = _ from hdata₁]
  have hvalidates : first.schedule.validates = schedule.validates := by
    rw [show first.schedule = _ from hschedule₁]
  -- What the second part checks first is what the last call before the cut left.
  have hvalid₂ : ops.checkIf first.schedule.validates first.data = none := by
    rw [hvalidates]
    cases n with
    | zero => rwa [show first.data = _ from hdata₁]
    | succ k =>
      rw [show first.data = _ from hdata₁]
      refine checkIf_stateAt_succ (fun hnone => ?_) (hpassed k (by omega))
      have := hfound k (Nat.lt_succ_self k)
      rw [isQuiet, hnone] at this
      cases this
  have hpassed₂ : ∀ k < ops.roundCount cut m, ∀ call ∈ ops.callsAt cut k,
      ops.fault? first.schedule.validates call = none := fun k hk call hcall => by
    rw [← callsAt_add] at hcall
    rw [hvalidates]
    exact hpassed (n + k) (Nat.add_lt_add_left hk n) call hcall
  obtain ⟨hfailure₂, hdata₂, hschedule₂⟩ := run_of_roundCount hcut rfl hvalid₂ hpassed₂
  refine ⟨hfailure₁, hfailure₂, ?_, ?_⟩
  · rw [hdata₂, hdata, stateAt_add]
  · rw [hschedule₂, hschedule, hschedule₁, stateAt_add, foundBefore_add, List.append_assoc,
      Nat.add_assoc]

/-- A run may be cut at its start, and behind a round that reports something. The two parts together
do what the whole run does. Behind a round that reports nothing the second part would start anew,
but there the first part alone is the whole run already. -/
theorem run_split (ops : Presolving P D E α) (schedule : Schedule P α) (n m : Nat) (data : D) :
    let start : State P D := ⟨schedule.presolvers, data⟩
    let whole := schedule.run ops (some (n + m : Nat)) data
    let first := schedule.run ops (some n) data
    let second := first.schedule.run ops (some m) first.data
    let takesPlace := fun round => schedule.rounds + round ≤ whole.schedule.rounds
    let reports := fun round => ∃ call ∈ ops.callsAt start (round - 1), call.found ≠ []
    (whole.failure = none → n = 0 ∨ takesPlace n ∧ reports n →
      first.failure = none ∧ second.failure = none ∧ second.data = whole.data ∧
        second.schedule = whole.schedule) ∧
    ((∃ last, 0 < last ∧ last ≤ n ∧ whole.schedule.rounds = schedule.rounds + last ∧
        ¬ reports last) →
      first = whole) := by
  intro start whole first second takesPlace reports
  refine ⟨fun hwhole hcut => run_of_parts hwhole ?_, fun hlast => ?_⟩
  · obtain rfl | ⟨htakes, hreports⟩ := hcut
    · exact fun k hk => absurd hk (Nat.not_lt_zero k)
    · obtain ⟨hvalid, hpassed⟩ := passed_of_run (s := start) rfl hwhole
      obtain ⟨-, -, hschedule⟩ := run_of_roundCount rfl rfl hvalid hpassed
      have hn : n ≤ ops.roundCount start (n + m) := by
        have : schedule.rounds + n ≤ whole.schedule.rounds := htakes
        rw [show whole.schedule = _ from hschedule] at this
        exact Nat.le_of_add_le_add_left this
      intro k hk
      obtain hk | rfl : k + 1 < n ∨ n = k + 1 := by omega
      · exact isQuiet_eq_false (Nat.lt_of_lt_of_le hk hn)
      · exact isQuiet_eq_false_iff.mpr hreports
  · obtain ⟨last, hpos, hle, -, hquiet⟩ := hlast
    have hquiet : ops.isQuiet start (last - 1) = true := by
      rw [← Bool.not_eq_false, isQuiet_eq_false_iff]
      exact hquiet
    exact (run_add_of_quiet schedule m data ⟨last - 1, by omega, hquiet⟩).symm

/-- The run of three rounds, cut behind the second, and with more rounds allowed than it makes. -/
theorem takingTurns_split :
    let whole := (takingTurns false).run scripted (some 5) 0
    let first := (takingTurns false).run scripted (some 2) 0
    let second := first.schedule.run scripted (some 3) first.data
    (whole.failure = none ∧ whole.schedule.rounds = 8) ∧
      (first.failure = none ∧ second.failure = none ∧ second.data = whole.data ∧
        second.schedule = whole.schedule) ∧
      (takingTurns false).run scripted (some 3) 0 = whole := by
  obtain ⟨hcut, -⟩ := run_split scripted (takingTurns false) 2 3 0
  obtain ⟨-, hstop⟩ := run_split scripted (takingTurns false) 3 2 0
  exact ⟨⟨rfl, rfl⟩,
    hcut rfl (.inr ⟨by decide, ⟨[], 3, [], .ok [.zeroCoefficient 2 0 ()]⟩, .head _, nofun⟩),
    hstop ⟨3, by decide, by decide, rfl, fun h => absurd (isQuiet_eq_false_iff.mpr h) (by decide)⟩⟩

end Schedule

end CoefficientTightening
