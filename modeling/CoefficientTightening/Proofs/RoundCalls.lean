import CoefficientTightening.Rounds
import Mathlib.Data.List.Basic
import Mathlib.Logic.Function.Iterate

/-! What a run of a schedule does, call by call. The calls are laid out as if none of them failed and
no round were the last: round after round, each presolver once and in order, on the data that the
call before it left. A run makes the first of these calls. It ends after the first round that finds
nothing, at the limit of rounds, or at the first call that fails, and keeps the records of the calls
before that one. Presolvers are arbitrary; what several of them share is part of the data. Data that
no call and no check can tell apart is not told apart by a run either. -/
namespace CoefficientTightening

variable {P D E α : Type}

/-- The reductions that a call returned, none if it failed. -/
def Application.found (call : Application P D E α) : List (Reduction α) :=
  match call.result with
  | .ok reductions => reductions
  | .error _ => []

namespace Presolving

/-- Presolvers and data between two rounds. -/
structure State (P D : Type) where
  presolvers : List P
  data : D

/-! ### The calls in advance -/

section Calls

variable (ops : Presolving P D E α)

/-- One call of each presolver. -/
def calls : List P → D → List (Application P D E α)
  | [], _ => []
  | presolver :: rest, data =>
    ops.apply presolver data :: calls rest (ops.apply presolver data).data

/-- The data that some calls leave. -/
def dataAfter (data : D) (calls : List (Application P D E α)) : D :=
  calls.foldl (fun _ call => call.data) data

def next (s : State P D) : State P D where
  presolvers := (ops.calls s.presolvers s.data).map (·.presolver)
  data := dataAfter s.data (ops.calls s.presolvers s.data)

/-- Presolvers and data after this many rounds. -/
def stateAt (s : State P D) (rounds : Nat) : State P D := ops.next^[rounds] s

/-- The calls of a round; the first round has number 0. -/
def callsAt (s : State P D) (round : Nat) : List (Application P D E α) :=
  ops.calls (ops.stateAt s round).presolvers (ops.stateAt s round).data

def foundBefore (s : State P D) (round : Nat) : List (Reduction α) :=
  (List.range round).flatMap fun k => (ops.callsAt s k).flatMap (·.found)

/-- All presolvers return the empty list. -/
def isQuiet (s : State P D) (round : Nat) : Bool :=
  (ops.callsAt s round).all (·.found.isEmpty)

/-- The first quiet round is the last one, if the limit allows it. -/
def roundCount (s : State P D) (limit : Nat) : Nat :=
  min ((List.range limit).findIdx (ops.isQuiet s) + 1) limit

/-- Why a call ends the run: it failed itself, or its data fails the check. -/
def fault? (validates : Bool) (call : Application P D E α) : Option E :=
  match call.result with
  | .error e => some e
  | .ok _ => ops.checkIf validates call.data

end Calls

variable {ops : Presolving P D E α} {validates : Bool} {presolver : P} {rest presolvers : List P}
  {data : D} {s : State P D} {e : E} {before after : List (Application P D E α)}
  {call : Application P D E α}

theorem length_calls (ops : Presolving P D E α) (presolvers : List P) (data : D) :
    (ops.calls presolvers data).length = presolvers.length := by
  induction presolvers generalizing data with
  | nil => rfl
  | cons presolver rest ih => rw [calls, List.length_cons, List.length_cons, ih]

/-- Each call is that of the presolver at its place, on the data that the calls before it left. -/
theorem getElem?_calls (ops : Presolving P D E α) (presolvers : List P) (data : D) (k : Nat) :
    (ops.calls presolvers data)[k]? = presolvers[k]?.map fun presolver =>
      ops.apply presolver (dataAfter data ((ops.calls presolvers data).take k)) := by
  induction presolvers generalizing data k with
  | nil => rfl
  | cons presolver rest ih =>
    cases k with
    | zero => rfl
    | succ k =>
      rw [calls, List.getElem?_cons_succ, List.getElem?_cons_succ, ih]
      rfl

theorem stateAt_succ (ops : Presolving P D E α) (s : State P D) (k : Nat) :
    ops.stateAt s (k + 1) = ops.stateAt (ops.next s) k :=
  Function.iterate_succ_apply _ _ _

theorem callsAt_succ (ops : Presolving P D E α) (s : State P D) (k : Nat) :
    ops.callsAt s (k + 1) = ops.callsAt (ops.next s) k := by
  rw [callsAt, stateAt_succ, callsAt]

theorem foundBefore_succ (ops : Presolving P D E α) (s : State P D) (k : Nat) :
    ops.foundBefore s (k + 1) =
      (ops.callsAt s 0).flatMap (·.found) ++ ops.foundBefore (ops.next s) k := by
  rw [foundBefore, List.range_succ_eq_map, List.flatMap_cons, List.flatMap_map, foundBefore]
  simp only [callsAt_succ]

/-! ### The number of rounds -/

theorem roundCount_succ (ops : Presolving P D E α) (s : State P D) (limit : Nat) :
    ops.roundCount s (limit + 1) =
      if ops.isQuiet s 0 then 1 else ops.roundCount (ops.next s) limit + 1 := by
  have hlater : ops.isQuiet s ∘ Nat.succ = ops.isQuiet (ops.next s) := by
    funext k
    rw [Function.comp_apply, isQuiet, callsAt_succ, isQuiet]
  rw [roundCount, List.range_succ_eq_map, List.findIdx_cons, List.findIdx_map, hlater, roundCount]
  cases ops.isQuiet s 0 with
  | true => simp
  | false => simp only [cond_false, Bool.false_eq_true, if_false]; omega

theorem roundCount_pos (ops : Presolving P D E α) (s : State P D) (limit : Nat) :
    0 < ops.roundCount s (limit + 1) := by
  rw [roundCount_succ]
  split <;> omega

theorem roundCount_eq_min {limit k : Nat} (hquiet : ops.isQuiet s k = true)
    (hfirst : ∀ k' < k, ops.isQuiet s k' = false) : ops.roundCount s limit = min (k + 1) limit := by
  induction k generalizing s limit with
  | zero =>
    cases limit with
    | zero => rfl
    | succ limit =>
      rw [roundCount_succ, if_pos hquiet]
      omega
  | succ k ih =>
    cases limit with
    | zero => rfl
    | succ limit =>
      have hlater : ops.roundCount (ops.next s) limit = min (k + 1) limit := by
        refine ih ?_ fun k' hk' => ?_
        · rw [isQuiet, ← callsAt_succ]
          exact hquiet
        · rw [isQuiet, ← callsAt_succ]
          exact hfirst (k' + 1) (Nat.succ_lt_succ hk')
      rw [roundCount_succ, hfirst 0 (Nat.succ_pos k), if_neg Bool.false_ne_true, hlater]
      omega

theorem roundCount_eq_limit {limit : Nat} (h : ∀ k < limit, ops.isQuiet s k = false) :
    ops.roundCount s limit = limit := by
  have hnone : (List.range limit).findIdx (ops.isQuiet s) = (List.range limit).length := by
    rw [List.findIdx_eq_length]
    exact fun k hk => h k (List.mem_range.mp hk)
  rw [roundCount, hnone, List.length_range]
  omega

/-! ### One round -/

theorem applyAll_cons_of_fault (h : ops.fault? validates (ops.apply presolver data) = some e) :
    ops.applyAll validates (presolver :: rest) data =
      ⟨(ops.apply presolver data).presolver :: rest, (ops.apply presolver data).data, [],
        (ops.apply presolver data).events, 0, some e⟩ := by
  unfold fault? at h
  cases hresult : (ops.apply presolver data).result with
  | error e' =>
    rw [hresult] at h
    cases h
    simp only [applyAll, hresult]
  | ok reductions =>
    rw [hresult] at h
    simp only [applyAll, hresult, h]

theorem applyAll_cons_of_passed (rest : List P)
    (h : ops.fault? validates (ops.apply presolver data) = none) :
    let a := ops.applyAll validates (presolver :: rest) data
    let later := ops.applyAll validates rest (ops.apply presolver data).data
    a.presolvers = (ops.apply presolver data).presolver :: later.presolvers ∧
      a.data = later.data ∧ a.reductions = (ops.apply presolver data).found ++ later.reductions ∧
      a.failure = later.failure := by
  unfold fault? at h
  cases hresult : (ops.apply presolver data).result with
  | error e =>
    rw [hresult] at h
    cases h
  | ok reductions =>
    rw [hresult] at h
    simp only [applyAll, Application.found, hresult, h]
    exact ⟨trivial, trivial, trivial, trivial⟩

/-- A round without a failing call makes all its calls. -/
theorem applyAll_of_passed (presolvers : List P) (data : D)
    (h : ∀ c ∈ ops.calls presolvers data, ops.fault? validates c = none) :
    let a := ops.applyAll validates presolvers data
    a.presolvers = (ops.calls presolvers data).map (·.presolver) ∧
      a.data = dataAfter data (ops.calls presolvers data) ∧
      a.reductions = (ops.calls presolvers data).flatMap (·.found) ∧ a.failure = none := by
  induction presolvers generalizing data with
  | nil => exact ⟨rfl, rfl, rfl, rfl⟩
  | cons presolver rest ih =>
    obtain ⟨hpresolvers, hdata, hreductions, hfailure⟩ :=
      applyAll_cons_of_passed rest (h _ List.mem_cons_self)
    obtain ⟨hpresolvers', hdata', hreductions', hfailure'⟩ :=
      ih _ fun c hc => h c (List.mem_cons_of_mem _ hc)
    exact ⟨hpresolvers.trans (congrArg _ hpresolvers'), hdata.trans hdata',
      hreductions.trans (congrArg _ hreductions'), hfailure.trans hfailure'⟩

/-- A round with a failing call ends there; the presolvers after it are as they were. -/
theorem applyAll_of_fault (presolvers : List P) (data : D)
    (hcalls : ops.calls presolvers data = before ++ call :: after)
    (hbefore : ∀ c ∈ before, ops.fault? validates c = none)
    (hcall : ops.fault? validates call = some e) :
    let a := ops.applyAll validates presolvers data
    a.presolvers =
        before.map (·.presolver) ++ call.presolver :: presolvers.drop (before.length + 1) ∧
      a.data = call.data ∧ a.reductions = before.flatMap (·.found) ∧ a.failure = some e := by
  induction presolvers generalizing data before with
  | nil => exact absurd hcalls.symm (by simp [calls])
  | cons presolver rest ih =>
    cases before with
    | nil =>
      obtain ⟨rfl, -⟩ := List.cons.inj hcalls
      rw [applyAll_cons_of_fault hcall]
      exact ⟨rfl, rfl, rfl, rfl⟩
    | cons first before =>
      obtain ⟨rfl, hlater⟩ := List.cons.inj hcalls
      obtain ⟨hpresolvers, hdata, hreductions, hfailure⟩ :=
        applyAll_cons_of_passed rest (hbefore _ List.mem_cons_self)
      obtain ⟨hpresolvers', hdata', hreductions', hfailure'⟩ :=
        ih _ hlater fun c hc => hbefore c (List.mem_cons_of_mem _ hc)
      exact ⟨hpresolvers.trans (congrArg _ hpresolvers'), hdata.trans hdata',
        hreductions.trans (congrArg _ hreductions'), hfailure.trans hfailure'⟩

/-! ### Rounds -/

theorem isEmpty_flatMap_found (calls : List (Application P D E α)) :
    (calls.flatMap (·.found)).isEmpty = calls.all (·.found.isEmpty) := by
  rw [Bool.eq_iff_iff, List.isEmpty_iff, List.flatMap_eq_nil_iff, List.all_eq_true]
  simp only [List.isEmpty_iff]

theorem repeatRounds_succ_of_failed (left number : Nat)
    (h : (ops.applyAll validates presolvers data).failure = some e) :
    let a := ops.applyAll validates presolvers data
    let r := ops.repeatRounds validates (left + 1) number presolvers data
    r.presolvers = a.presolvers ∧ r.data = a.data ∧ r.reductions = a.reductions ∧
      r.failure = some e := by
  simp only [repeatRounds, h, Option.isSome_some, if_true, and_self]

theorem repeatRounds_succ_of_quiet (left number : Nat)
    (h : (ops.applyAll validates presolvers data).failure = none)
    (hquiet : (ops.applyAll validates presolvers data).reductions.isEmpty = true) :
    let a := ops.applyAll validates presolvers data
    let r := ops.repeatRounds validates (left + 1) number presolvers data
    r.presolvers = a.presolvers ∧ r.data = a.data ∧ r.reductions = a.reductions ∧ r.rounds = 1 ∧
      r.failure = none := by
  simp only [repeatRounds, h, hquiet, Option.isSome_none, Bool.false_eq_true, if_false, if_true,
    and_self]

theorem repeatRounds_succ_of_found (left number : Nat)
    (h : (ops.applyAll validates presolvers data).failure = none)
    (hfound : (ops.applyAll validates presolvers data).reductions.isEmpty = false) :
    let a := ops.applyAll validates presolvers data
    let later := ops.repeatRounds validates left (number + 1) a.presolvers a.data
    let r := ops.repeatRounds validates (left + 1) number presolvers data
    r.presolvers = later.presolvers ∧ r.data = later.data ∧
      r.reductions = a.reductions ++ later.reductions ∧ r.rounds = later.rounds + 1 ∧
      r.failure = later.failure := by
  simp only [repeatRounds, h, hfound, Option.isSome_none, Bool.false_eq_true, if_false, and_self]

/-- Rounds without a failing call: they end with the first one that is quiet, or at the limit. -/
theorem repeatRounds_of_passed (left number : Nat)
    (h : ∀ k < ops.roundCount s left, ∀ c ∈ ops.callsAt s k, ops.fault? validates c = none) :
    let r := ops.repeatRounds validates left number s.presolvers s.data
    let rounds := ops.roundCount s left
    r.presolvers = (ops.stateAt s rounds).presolvers ∧ r.data = (ops.stateAt s rounds).data ∧
      r.reductions = ops.foundBefore s rounds ∧ r.rounds = rounds ∧ r.failure = none := by
  induction left generalizing number s with
  | zero => exact ⟨rfl, rfl, rfl, rfl, rfl⟩
  | succ left ih =>
    obtain ⟨hpresolvers, hdata, hreductions, hfailure⟩ :=
      applyAll_of_passed s.presolvers s.data
        (h 0 (roundCount_pos ops s left))
    have hempty : (ops.applyAll validates s.presolvers s.data).reductions.isEmpty =
        ops.isQuiet s 0 := by
      rw [hreductions]
      exact isEmpty_flatMap_found _
    rw [roundCount_succ] at h ⊢
    cases hquiet : ops.isQuiet s 0 with
    | true =>
      obtain ⟨hp, hd, hr, hn, hf⟩ :=
        repeatRounds_succ_of_quiet left number hfailure
          (hempty.trans hquiet)
      rw [if_pos rfl]
      refine ⟨hp.trans hpresolvers, hd.trans hdata, ?_, hn, hf⟩
      rw [foundBefore_succ, hr, hreductions]
      exact (List.append_nil _).symm
    | false =>
      rw [hquiet] at h
      obtain ⟨hp, hd, hr, hn, hf⟩ :=
        repeatRounds_succ_of_found left number hfailure
          (hempty.trans hquiet)
      obtain ⟨hp', hd', hr', hn', hf'⟩ :=
        ih (number + 1) (s := ops.next s) fun k hk => by
          rw [← callsAt_succ]
          exact h (k + 1) (Nat.succ_lt_succ hk)
      rw [if_neg Bool.false_ne_true]
      dsimp only
      rw [stateAt_succ, foundBefore_succ, hp, hd, hr, hn, hf, hpresolvers, hdata, hreductions]
      exact ⟨hp', hd', congrArg _ hr', congrArg (· + 1) hn', hf'⟩

/-- Rounds up to a call that fails. -/
theorem repeatRounds_of_fault {left k : Nat} (number : Nat) (hk : k < ops.roundCount s left)
    (hearlier : ∀ k' < k, ∀ c ∈ ops.callsAt s k', ops.fault? validates c = none)
    (hcalls : ops.callsAt s k = before ++ call :: after)
    (hbefore : ∀ c ∈ before, ops.fault? validates c = none)
    (hcall : ops.fault? validates call = some e) :
    let r := ops.repeatRounds validates left number s.presolvers s.data
    r.presolvers = before.map (·.presolver) ++
        call.presolver :: (ops.stateAt s k).presolvers.drop (before.length + 1) ∧
      r.data = call.data ∧
      r.reductions = ops.foundBefore s k ++ before.flatMap (·.found) ∧ r.failure = some e := by
  induction left generalizing number s k with
  | zero => exact absurd hk (Nat.not_lt_zero k)
  | succ left ih =>
    cases k with
    | zero =>
      obtain ⟨hpresolvers, hdata, hreductions, hfailure⟩ :=
        applyAll_of_fault s.presolvers s.data hcalls hbefore hcall
      obtain ⟨hp, hd, hr, hf⟩ :=
        repeatRounds_succ_of_failed left number hfailure
      exact ⟨hp.trans hpresolvers, hd.trans hdata, hr.trans hreductions, hf⟩
    | succ k =>
      obtain ⟨hpresolvers, hdata, hreductions, hfailure⟩ :=
        applyAll_of_passed s.presolvers s.data
          (hearlier 0 (Nat.succ_pos k))
      have hquiet : ops.isQuiet s 0 = false := by
        rw [Bool.eq_false_iff]
        intro hquiet
        rw [roundCount_succ, if_pos hquiet] at hk
        omega
      have hfound : (ops.applyAll validates s.presolvers s.data).reductions.isEmpty = false := by
        rw [hreductions, ← hquiet]
        exact isEmpty_flatMap_found _
      rw [roundCount_succ, hquiet, if_neg Bool.false_ne_true] at hk
      rw [callsAt_succ] at hcalls
      obtain ⟨hp, hd, hr, -, hf⟩ :=
        repeatRounds_succ_of_found left number hfailure hfound
      obtain ⟨hp', hd', hr', hf'⟩ :=
        ih (number + 1) (s := ops.next s) (k := k) (by omega)
          (fun k' hk' => by
            rw [← callsAt_succ]
            exact hearlier (k' + 1) (Nat.succ_lt_succ hk')) hcalls
      dsimp only
      rw [stateAt_succ, foundBefore_succ, hp, hd, hr, hf, hpresolvers, hdata, hreductions,
        List.append_assoc]
      exact ⟨hp', hd', congrArg _ hr', hf'⟩

/-! ### Data that cannot be told apart -/

/-- Presolvers and checks do the same on data that `R` relates, and leave data that it relates. -/
structure IsBlindTo (ops : Presolving P D E α) (R : D → D → Prop) : Prop where
  data : ∀ presolver d d', R d d' → R (ops.apply presolver d).data (ops.apply presolver d').data
  presolver : ∀ presolver d d', R d d' →
    (ops.apply presolver d').presolver = (ops.apply presolver d).presolver
  events : ∀ presolver d d', R d d' →
    (ops.apply presolver d').events = (ops.apply presolver d).events
  result : ∀ presolver d d', R d d' →
    (ops.apply presolver d').result = (ops.apply presolver d).result
  check : ∀ d d', R d d' → ops.check d' = ops.check d

variable {R : D → D → Prop} {d d' : D}

theorem IsBlindTo.checkIf (hblind : ops.IsBlindTo R) (validates : Bool) (h : R d d') :
    ops.checkIf validates d' = ops.checkIf validates d := by
  rw [Presolving.checkIf, hblind.check d d' h, Presolving.checkIf]

theorem IsBlindTo.applyAll (hblind : ops.IsBlindTo R) (validates : Bool) (presolvers : List P)
    (h : R d d') :
    ∃ last, R (ops.applyAll validates presolvers d).data last ∧
      ops.applyAll validates presolvers d' =
        { ops.applyAll validates presolvers d with data := last } := by
  induction presolvers generalizing d d' with
  | nil => exact ⟨d', h, rfl⟩
  | cons presolver rest ih =>
    have hdata := hblind.data presolver d d' h
    obtain ⟨last, hlast, hrest⟩ := ih hdata
    simp only [Presolving.applyAll, hblind.presolver presolver d d' h,
      hblind.events presolver d d' h, hblind.result presolver d d' h,
      hblind.checkIf validates hdata, hrest]
    split
    · exact ⟨_, hdata, rfl⟩
    · exact ⟨_, hdata, rfl⟩
    · exact ⟨_, hlast, rfl⟩

theorem IsBlindTo.repeatRounds (hblind : ops.IsBlindTo R) (validates : Bool) (left number : Nat)
    (presolvers : List P) (h : R d d') :
    ∃ last, R (ops.repeatRounds validates left number presolvers d).data last ∧
      ops.repeatRounds validates left number presolvers d' =
        { ops.repeatRounds validates left number presolvers d with data := last } := by
  induction left generalizing number presolvers d d' with
  | zero => exact ⟨d', h, rfl⟩
  | succ left ih =>
    obtain ⟨here, hhere, happly⟩ := hblind.applyAll validates presolvers h
    obtain ⟨last, hlast, hlater⟩ :=
      ih (number + 1) (ops.applyAll validates presolvers d).presolvers hhere
    simp only [Presolving.repeatRounds, happly, hlater]
    split
    · exact ⟨_, hhere, rfl⟩
    · split
      · exact ⟨_, hhere, rfl⟩
      · exact ⟨_, hlast, rfl⟩

end Presolving

/-! ### A run -/

namespace Schedule

open Presolving

variable {ops : Presolving P D E α} {schedule : Schedule P α} {limit : Option Int} {data : D} {e : E}

theorem run_of_invalid (h : ops.checkIf schedule.validates data = some e) :
    schedule.run ops limit data = ⟨schedule, data, [], some e⟩ := by
  rw [run, h]

/-- A run that starts is its rounds, and the account of them in the schedule. -/
theorem run_of_valid (h : ops.checkIf schedule.validates data = none) :
    let p := ops.repeatRounds schedule.validates (limit.getD schedule.maxRounds).toNat 1
      schedule.presolvers data
    schedule.run ops limit data =
      { schedule :=
          { schedule with
            presolvers := p.presolvers
            applied := schedule.applied ++ p.reductions
            rounds := if p.failure.isSome then schedule.rounds else schedule.rounds + p.rounds }
        data := p.data
        events := p.events
        failure := p.failure } := by
  rw [run, h]

/-- Runs on data that cannot be told apart differ in the data that they leave at most. -/
theorem run_of_isBlindTo (schedule : Schedule P α) (limit : Option Int) {R : D → D → Prop}
    (hblind : ops.IsBlindTo R) {data' : D} (h : R data data') :
    ∃ last, R (schedule.run ops limit data).data last ∧
      schedule.run ops limit data' = { schedule.run ops limit data with data := last } := by
  obtain ⟨last, hlast, hrounds⟩ := hblind.repeatRounds schedule.validates
    (limit.getD schedule.maxRounds).toNat 1 schedule.presolvers h
  unfold run
  rw [hblind.checkIf schedule.validates h]
  cases ops.checkIf schedule.validates data with
  | some e => exact ⟨data', h, rfl⟩
  | none =>
    simp only [hrounds]
    exact ⟨last, hlast, rfl⟩

/-- The run that no call of its rounds fails. -/
theorem run_of_passed (hvalid : ops.checkIf schedule.validates data = none)
    (hpassed : ∀ k < ops.roundCount ⟨schedule.presolvers, data⟩ (limit.getD schedule.maxRounds).toNat,
      ∀ call ∈ ops.callsAt ⟨schedule.presolvers, data⟩ k,
        ops.fault? schedule.validates call = none) :
    let start : State P D := ⟨schedule.presolvers, data⟩
    let rounds := ops.roundCount start (limit.getD schedule.maxRounds).toNat
    let run := schedule.run ops limit data
    run.failure = none ∧ run.data = (ops.stateAt start rounds).data ∧
      run.schedule =
        { schedule with
          presolvers := (ops.stateAt start rounds).presolvers
          applied := schedule.applied ++ ops.foundBefore start rounds
          rounds := schedule.rounds + rounds } := by
  intro start rounds run
  obtain ⟨hpresolvers, hdata, hreductions, hrounds, hfailure⟩ :=
    repeatRounds_of_passed (s := start) _ 1 hpassed
  have hrun : run = _ := run_of_valid hvalid
  rw [hrun]
  refine ⟨hfailure, hdata, ?_⟩
  simp only [start] at *
  rw [hpresolvers, hreductions, hrounds, hfailure]
  rfl

/-- The run that ends at a failing call. The count of rounds stays as it was. -/
theorem run_of_fault {k : Nat} {before after : List (Application P D E α)}
    {call : Application P D E α} (hvalid : ops.checkIf schedule.validates data = none)
    (hk : k < ops.roundCount ⟨schedule.presolvers, data⟩ (limit.getD schedule.maxRounds).toNat)
    (hcalls : ops.callsAt ⟨schedule.presolvers, data⟩ k = before ++ call :: after)
    (hearlier : ∀ k' < k, ∀ earlier ∈ ops.callsAt ⟨schedule.presolvers, data⟩ k',
      ops.fault? schedule.validates earlier = none)
    (hbefore : ∀ earlier ∈ before, ops.fault? schedule.validates earlier = none)
    (hcall : ops.fault? schedule.validates call = some e) :
    let start : State P D := ⟨schedule.presolvers, data⟩
    let run := schedule.run ops limit data
    run.failure = some e ∧ run.data = call.data ∧
      run.schedule =
        { schedule with
          presolvers := before.map (·.presolver) ++
            call.presolver :: (ops.stateAt start k).presolvers.drop (before.length + 1)
          applied := schedule.applied ++ ops.foundBefore start k ++ before.flatMap (·.found) } := by
  intro start run
  obtain ⟨hpresolvers, hdata, hreductions, hfailure⟩ :=
    repeatRounds_of_fault (s := start) 1 hk hearlier hcalls hbefore hcall
  have hrun : run = _ := run_of_valid hvalid
  rw [hrun]
  refine ⟨hfailure, hdata, ?_⟩
  simp only [start] at *
  rw [hpresolvers, hreductions, hfailure, List.append_assoc]
  rfl

/-- What a run does, for presolvers of any kind. Every round calls each presolver once, in order, on
what the call before left. The run makes the rounds up to the first that is quiet, or as many as the
limit allows, unless the check at the start or one of the calls fails. -/
theorem run_follows_calls (ops : Presolving P D E α) (schedule : Schedule P α) (limit : Option Int)
    (data : D) :
    let start : State P D := ⟨schedule.presolvers, data⟩
    let most := (limit.getD schedule.maxRounds).toNat
    let rounds := ops.roundCount start most
    let passes := fun call => ops.fault? schedule.validates call = none
    let run := schedule.run ops limit data
    (∀ k, (ops.callsAt start k).length = (ops.stateAt start k).presolvers.length ∧
      (∀ i, (ops.callsAt start k)[i]? = (ops.stateAt start k).presolvers[i]?.map fun presolver =>
        ops.apply presolver
          (dataAfter (ops.stateAt start k).data ((ops.callsAt start k).take i))) ∧
      ops.stateAt start (k + 1) =
        ⟨(ops.callsAt start k).map (·.presolver),
          dataAfter (ops.stateAt start k).data (ops.callsAt start k)⟩) ∧
    (∀ k, ops.isQuiet start k = true → (∀ k' < k, ops.isQuiet start k' = false) →
      rounds = min (k + 1) most) ∧
    ((∀ k < most, ops.isQuiet start k = false) → rounds = most) ∧
    (∀ e, ops.checkIf schedule.validates data = some e → run = ⟨schedule, data, [], some e⟩) ∧
    (ops.checkIf schedule.validates data = none →
      (∀ k < rounds, ∀ call ∈ ops.callsAt start k, passes call) →
      run.failure = none ∧ run.data = (ops.stateAt start rounds).data ∧
        run.schedule =
          { schedule with
            presolvers := (ops.stateAt start rounds).presolvers
            applied := schedule.applied ++ ops.foundBefore start rounds
            rounds := schedule.rounds + rounds }) ∧
    (ops.checkIf schedule.validates data = none →
      ∀ k < rounds, ∀ before call after e, ops.callsAt start k = before ++ call :: after →
      (∀ k' < k, ∀ earlier ∈ ops.callsAt start k', passes earlier) →
      (∀ earlier ∈ before, passes earlier) → ops.fault? schedule.validates call = some e →
      run.failure = some e ∧ run.data = call.data ∧
        run.schedule =
          { schedule with
            presolvers := before.map (·.presolver) ++
              call.presolver :: (ops.stateAt start k).presolvers.drop (before.length + 1)
            applied :=
              schedule.applied ++ ops.foundBefore start k ++ before.flatMap (·.found) }) := by
  intro start most rounds passes run
  refine ⟨fun k => ⟨length_calls .., getElem?_calls _ _ _, Function.iterate_succ_apply' ..⟩,
    fun k => roundCount_eq_min, roundCount_eq_limit, fun e => run_of_invalid, run_of_passed, ?_⟩
  intro hvalid k hk before call after e hcalls hearlier hbefore hcall
  exact run_of_fault hvalid hk hcalls hearlier hbefore hcall

/-! ### Two presolvers that take turns -/

/-- Presolvers that find something in the calls that their script marks. The data counts the calls and
is refused from the fourth on. -/
def scripted : Presolving (List Bool) Nat String Unit where
  name _ := "scripted"
  apply script data :=
    ⟨script.tail, data + 1, [], .ok (if script.headD false then [.zeroCoefficient data 0 ()] else [])⟩
  check data := if data < 4 then none else some "worn out"

/-- One finds something in the second round only, the other in the first. -/
def takingTurns (validates : Bool) : Schedule (List Bool) Unit where
  presolvers := [[false, true], [true, false]]
  maxRounds := 10
  validates
  applied := [.zeroCoefficient 7 7 ()]
  rounds := 5

/-- Unchecked, the run has three rounds; checked, it ends with the second call of the second round. -/
theorem takingTurns_run :
    let free := (takingTurns false).run scripted none 0
    let checked := (takingTurns true).run scripted none 0
    (free.failure = none ∧ free.data = 6 ∧
      free.schedule = { takingTurns false with
        presolvers := [[], []]
        applied := [.zeroCoefficient 7 7 (), .zeroCoefficient 1 0 (), .zeroCoefficient 2 0 ()]
        rounds := 8 }) ∧
      checked.failure = some "worn out" ∧ checked.data = 4 ∧
        checked.schedule = { takingTurns true with
          presolvers := [[], []]
          applied := [.zeroCoefficient 7 7 (), .zeroCoefficient 1 0 (), .zeroCoefficient 2 0 ()] } := by
  obtain ⟨-, -, -, -, hpassed, -⟩ := run_follows_calls scripted (takingTurns false) none 0
  obtain ⟨-, -, -, -, -, hfault⟩ := run_follows_calls scripted (takingTurns true) none 0
  exact ⟨hpassed rfl (by decide),
    hfault rfl 1 (by decide) [⟨[], 3, [], .ok [.zeroCoefficient 2 0 ()]⟩] ⟨[], 4, [], .ok []⟩ []
      "worn out" rfl (by decide) (by decide) rfl⟩

end Schedule

end CoefficientTightening
