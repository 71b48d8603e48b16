import Formulae.Proofs.Interruption.Log

/-!
# Proofs.Interruption.Transparency — an interruption ends a run and does nothing else

A run is compared with the run whose polls all pass. As long as polls pass both do the same, and the first
poll that does not pass is the last thing that is noted: no fault handling along the way, not even that of
folding, catches the interruption.

* `Run.Cut`: what is said of each part of a run.
* `cut_evaluate`, `Reading.cut_readNode`: evaluations and readings are made of such parts.
* `Transparent`, `interruptions_transparent`: what follows for readings, expressions and equations.
-/

namespace Formulae

open Evaluation

/-- The log ends in the poll that stopped the run, the only one that did not pass, and the fault is its
interruption. -/
def Stopped (events : Log) (fault : Fault) : Prop :=
  ∃ cancelled earlier, events = .polled (some cancelled) :: earlier ∧ Passed earlier ∧
    fault = .interrupted cancelled

theorem Stopped.append {later earlier : Log} {fault : Fault} (h : Stopped later fault)
    (hearlier : Passed earlier) : Stopped (later ++ earlier) fault := by
  obtain ⟨cancelled, before, rfl, hbefore, rfl⟩ := h
  exact ⟨cancelled, before ++ earlier, rfl, passed_append.mpr ⟨hbefore, hearlier⟩, rfl⟩

/-- A run that began with the log `earlier` was stopped by a poll, the last thing it noted, or it noted no
poll that has not passed and the other run ended in the same way, up to `rel` between the values. -/
def CutAt {ς α β : Type} (log : ς → Log) (rel : α → β → Prop) (earlier : Log)
    (r : Option (Except Fault α × ς)) (r' : Option (Except Fault β × ς)) : Prop :=
  match r with
  | some (.ok a, t) => ∃ events, log t = events ++ earlier ∧ Passed events ∧
      ∃ b, r' = some (.ok b, t) ∧ rel a b
  | some (.error fault, t) => ∃ events, log t = events ++ earlier ∧
      (Stopped events fault ∨ Passed events ∧ r' = some (.error fault, t))
  | none => r' = none

/-- What passed before belongs to the run as well. -/
theorem CutAt.later {ς α β : Type} {log : ς → Log} {rel : α → β → Prop} {events earlier : Log}
    {r : Option (Except Fault α × ς)} {r' : Option (Except Fault β × ς)}
    (h : CutAt log rel (events ++ earlier) r r') (hpassed : Passed events) :
    CutAt log rel earlier r r' := by
  rcases r with _ | ⟨fault | a, t⟩
  · exact h
  · obtain ⟨more, hlog, hcases⟩ := h
    refine ⟨more ++ events, by rw [hlog, List.append_assoc], ?_⟩
    rcases hcases with hstopped | ⟨hmore, hr'⟩
    · exact .inl (hstopped.append hpassed)
    · exact .inr ⟨passed_append.mpr ⟨hmore, hpassed⟩, hr'⟩
  · obtain ⟨more, hlog, hmore, hr'⟩ := h
    exact ⟨more ++ events, by rw [hlog, List.append_assoc], passed_append.mpr ⟨hmore, hpassed⟩, hr'⟩

/-- Parts of the state may be set aside afterwards. -/
theorem CutAt.map {ς ς' α β : Type} {log : ς → Log} {log' : ς' → Log} {rel : α → β → Prop}
    {earlier : Log} {r : Option (Except Fault α × ς)} {r' : Option (Except Fault β × ς)}
    (h : CutAt log rel earlier r r') (f : ς → ς') (hf : ∀ t, log' (f t) = log t) :
    CutAt log' rel earlier (r.map fun p => (p.1, f p.2)) (r'.map fun p => (p.1, f p.2)) := by
  rcases r with _ | ⟨fault | a, t⟩
  · obtain rfl : r' = none := h
    rfl
  · obtain ⟨events, hlog, hcases⟩ := h
    refine ⟨events, (hf t).trans hlog, hcases.imp_right ?_⟩
    rintro ⟨hpassed, rfl⟩
    exact ⟨hpassed, rfl⟩
  · obtain ⟨events, hlog, hpassed, b, rfl, hab⟩ := h
    exact ⟨events, (hf t).trans hlog, hpassed, b, rfl, hab⟩

/-- Whatever state both runs begin in, the first one is stopped by a poll or does what the second one does. -/
def Run.Cut {ς α β : Type} (log : ς → Log) (rel : α → β → Prop) (x : Run ς α) (y : Run ς β) : Prop :=
  ∀ s, CutAt log rel (log s) (x s) (y s)

namespace Run

variable {ς α β γ δ : Type} {log : ς → Log} {rel : α → β → Prop}

theorem cut_of_still {x : Run ς α} {y : Run ς β} (h : ∀ s, ∃ a b t, x s = some (.ok a, t) ∧
    y s = some (.ok b, t) ∧ rel a b ∧ log t = log s) : Cut log rel x y := by
  intro s
  obtain ⟨a, b, t, hx, hy, hab, hlog⟩ := h s
  rw [hx]
  exact ⟨[], hlog, passed_nil, b, hy, hab⟩

theorem cut_fail (fault : Fault) : Cut log rel (Run.fail fault) (Run.fail fault) :=
  fun _ => ⟨[], rfl, .inr ⟨passed_nil, rfl⟩⟩

theorem cut_ofExcept (outcome : Except Fault α) :
    Cut log Eq (Run.ofExcept outcome) (Run.ofExcept outcome) := by
  cases outcome with
  | ok a => exact cut_of_still fun s => ⟨a, a, s, rfl, rfl, rfl, rfl⟩
  | error fault => exact cut_fail fault

theorem Cut.bind {rel' : γ → δ → Prop} {x : Run ς α} {y : Run ς β} {f : α → Run ς γ}
    {g : β → Run ς δ} (h : Cut log rel x y) (hf : ∀ a b, rel a b → Cut log rel' (f a) (g b)) :
    Cut log rel' (x >>= f) (y >>= g) := by
  intro s
  have hs := h s
  rw [bind_apply]
  rcases hx : x s with _ | ⟨fault | a, t⟩
  · rw [hx] at hs
    exact bind_of_none hs
  · rw [hx] at hs
    obtain ⟨events, hlog, hcases⟩ := hs
    exact ⟨events, hlog, hcases.imp_right fun ⟨hpassed, hy⟩ => ⟨hpassed, bind_of_error hy⟩⟩
  · rw [hx] at hs
    obtain ⟨events, hlog, hpassed, b, hy, hab⟩ := hs
    rw [bind_of_ok hy]
    have ht := hf a b hab t
    rw [hlog] at ht
    exact ht.later hpassed

end Run

/-! ### Evaluations -/

/-- The host keeps a log, and the other one does the same but for polls that do not pass. -/
structure Host.Logs {ω : Type} (log : ω → Log) (host passing : Host ω) : Prop where
  poll : ∀ w, log (host.poll w).2 = .polled (host.poll w).1 :: log w
  passes : ∀ w, (host.poll w).1 = none → passing.poll w = host.poll w
  draws : ∀ w, log (host.random w).2 = .drawn :: log w
  random : ∀ w, passing.random w = host.random w

/-- A poll passes for both hosts, or it is noted as one that does not. -/
theorem Host.Logs.poll_cases {ω : Type} {log : ω → Log} {host passing : Host ω}
    (h : Host.Logs log host passing) (w : ω) :
    (∃ after, host.poll w = (none, after) ∧ passing.poll w = (none, after) ∧
      log after = .polled none :: log w) ∨
    ∃ cancelled after, host.poll w = (some cancelled, after) ∧
      log after = .polled (some cancelled) :: log w := by
  have hlog := h.poll w
  rcases hpoll : host.poll w with ⟨_ | cancelled, after⟩
  · rw [hpoll] at hlog
    exact .inl ⟨after, rfl, (h.passes w (by rw [hpoll])).trans hpoll, hlog⟩
  · rw [hpoll] at hlog
    exact .inr ⟨cancelled, after, rfl, hlog⟩

theorem Host.logs_logged {σ : Type} (host : Host σ) :
    Host.Logs Prod.fst host.logged host.passing.logged where
  poll _ := rfl
  passes := by
    intro w hpass
    have hstop : (host.poll w.2).1 = none := hpass
    unfold Host.logged Host.passing
    simp [hstop]
  draws _ := rfl
  random _ := rfl

theorem Host.Logs.onSecond {ω : Type} {log : ω → Log} {host passing : Host ω}
    (h : Host.Logs log host passing) (τ : Type) :
    Host.Logs (fun w => log w.2) (host.onSecond τ) (passing.onSecond τ) where
  poll w := h.poll w.2
  passes := by
    intro w hpass
    unfold Host.onSecond
    simp only [h.passes w.2 hpass]
  draws w := h.draws w.2
  random := by
    intro w
    unfold Host.onSecond
    simp only [h.random w.2]

/-- What the source adds to the log is no poll. -/
def Source.Notes {ω : Type} (log : ω → Log) (source : Source ω) : Prop :=
  ∀ name w, ∃ events, log (source name w).2 = events ++ log w ∧ Passed events

theorem Source.notes_none {ω : Type} (log : ω → Log) : Source.none.Notes log :=
  fun _ _ => ⟨[], rfl, passed_nil⟩

section Evaluations

variable {ω : Type} {log : ω → Log} {host passing : Host ω} (h : Host.Logs log host passing)
include h

/-- A poll passes, or it is noted and ends the run. -/
theorem cut_poll : Run.Cut (fun ctx : Context ω => log ctx.world) Eq (poll host) (poll passing) := by
  intro ctx
  unfold poll
  rcases h.poll_cases ctx.world with ⟨w, hpoll, hpass, hlog⟩ | ⟨cancelled, w, hpoll, hlog⟩
  · rw [hpoll, hpass]
    exact ⟨[.polled none], hlog, by simp [Passed], (), rfl, rfl⟩
  · rw [hpoll]
    exact ⟨[.polled (some cancelled)], hlog, .inl ⟨cancelled, [], rfl, passed_nil, rfl⟩⟩

theorem cut_draw : Run.Cut (fun ctx : Context ω => log ctx.world) Eq (draw host) (draw passing) := by
  intro ctx
  have hlog := h.draws ctx.world
  have hrandom := h.random ctx.world
  unfold draw
  rcases hdraw : host.random ctx.world with ⟨x, w⟩
  rw [hdraw] at hlog hrandom
  refine ⟨[.drawn], hlog, by simp [Passed], x, ?_, rfl⟩
  simp only [hrandom]

omit h in
theorem cut_inScope (index : Float) {x y : Evaluation ω Float}
    (hxy : Run.Cut (fun ctx : Context ω => log ctx.world) Eq x y) :
    Run.Cut (fun ctx : Context ω => log ctx.world) Eq (inScope index x) (inScope index y) := by
  intro ctx
  rw [inScope_eq_map, inScope_eq_map]
  refine (hxy (ctx.within index)).map (fun inner => { ctx with world := inner.world }) ?_
  intro inner
  rfl

theorem lifts_cut (source : Source ω) (enter enter' : Node → Evaluation ω Float) (steps : Nat) :
    Lifts ⟨host, source, enter, steps⟩ ⟨passing, source, enter', steps⟩ Eq
      (fun _ => Run.Cut (fun ctx : Context ω => log ctx.world) Eq) where
  ofExcept _ := Run.cut_ofExcept _
  bind hx hf := hx.bind fun a _ hab => hab ▸ hf a
  limit := Run.cut_of_still fun ctx => ⟨_, _, ctx, rfl, rfl, rfl, rfl⟩
  poll := cut_poll h
  inScope := cut_inScope
  exhausted hmore hn := by
    rw [hn hmore.symm]
    exact fun _ => rfl
  succ hmore := ⟨_, hmore.symm, rfl⟩
  steps := rfl

omit h in
/-- A question to the source is noted and stops nothing. -/
theorem cut_resolve {source : Source ω} (hsource : source.Notes log)
    {enter enter' : Node → Evaluation ω Float}
    (henter : ∀ root, Run.Cut (fun ctx : Context ω => log ctx.world) Eq (enter root) (enter' root))
    (name : String) :
    Run.Cut (fun ctx : Context ω => log ctx.world) Eq (resolve source enter name)
      (resolve source enter' name) := by
  intro ctx
  rcases hindex : ctx.boundIndex? name with _ | index
  · by_cases hlimit : ctx.limits.substitutions < (ctx.hit name).hits.count name
    · rw [resolve_of_refused _ _ hindex hlimit, resolve_of_refused _ _ hindex hlimit]
      exact ⟨[], rfl, .inr ⟨passed_nil, rfl⟩⟩
    · rcases hfound : source name ctx.world with ⟨found, w⟩
      rw [resolve_of_found _ _ hindex hlimit hfound, resolve_of_found _ _ hindex hlimit hfound]
      obtain ⟨events, hlog, hpassed⟩ := hsource name ctx.world
      rw [hfound] at hlog
      cases found with
      | unbound => exact ⟨events, hlog, .inr ⟨hpassed, rfl⟩⟩
      | value outcome =>
        cases outcome with
        | ok value => exact ⟨events, hlog, hpassed, value, rfl, rfl⟩
        | error fault => exact ⟨events, hlog, .inr ⟨hpassed, rfl⟩⟩
      | formula root =>
        have hroot := henter root { ctx.hit name with world := w }
        simp only [hlog] at hroot
        exact hroot.later hpassed
  · rw [resolve_of_index _ _ hindex, resolve_of_index _ _ hindex]
    exact ⟨[], rfl, passed_nil, index, rfl, rfl⟩

theorem cut_evaluate {source : Source ω} (hsource : source.Notes log) (steps : Nat) (node : Node) :
    Run.Cut (fun ctx : Context ω => log ctx.world) Eq (evaluate host source steps node)
      (evaluate passing source steps node) := by
  induction steps generalizing node with
  | zero => exact fun _ => rfl
  | succ steps ih =>
    exact (lifts_cut h source _ _ steps).run (cut_draw h) (cut_resolve hsource ih) node

theorem cut_evaluateFresh {source : Source ω} (hsource : source.Notes log) (steps : Nat)
    (limits : Limits) (node : Node) :
    Run.Cut log Eq (evaluateFresh host source steps limits node)
      (evaluateFresh passing source steps limits node) := by
  intro w
  rw [evaluateFresh_eq_map, evaluateFresh_eq_map]
  exact (cut_evaluate h hsource steps node (Context.fresh limits w)).map Context.world fun _ => rfl

end Evaluations

/-! ### Readings -/

namespace Reading

section Readings

variable {ω : Type} {log : ω → Log} {host passing : Host ω} (h : Host.Logs log host passing)
include h

theorem carries_cut : Carries host passing (Run.Cut fun r => log r.world) where
  pure hab := Run.cut_of_still fun r => ⟨_, _, r, rfl, rfl, hab, rfl⟩
  bind hx hf := hx.bind hf
  fail _ fault := Run.cut_fail fault
  exhausted _ := fun _ => rfl
  cursor := Run.cut_of_still fun r => ⟨_, _, r, rfl, rfl, rfl, rfl⟩
  moveTo c := Run.cut_of_still fun r => ⟨_, _, { r with cursor := c }, rfl, rfl, rfl, rfl⟩
  advance := by
    have hpoll : Run.Cut (fun r : Reader ω => log r.world) Eq (poll host) (poll passing) := by
      intro r
      unfold poll
      rcases h.poll_cases r.world with ⟨w, hpoll, hpass, hlog⟩ | ⟨cancelled, w, hpoll, hlog⟩
      · rw [hpoll, hpass]
        exact ⟨[.polled none], hlog, by simp [Passed], (), rfl, rfl⟩
      · rw [hpoll]
        exact ⟨[.polled (some cancelled)], hlog, .inl ⟨cancelled, [], rfl, passed_nil, rfl⟩⟩
    exact hpoll.bind fun _ _ _ => Run.cut_of_still fun r =>
      ⟨_, _, { r with cursor := r.cursor.next }, rfl, rfl, rfl, rfl⟩

/-- Folding keeps a node whose evaluation fails, but not one whose evaluation is stopped. -/
theorem cut_fold (steps : Nat) (limits : Limits) (node : Node) :
    Run.Cut (fun r : Reader ω => log r.world) Eq (fold host steps limits node)
      (fold passing steps limits node) := by
  intro r
  have hrun := cut_evaluateFresh h (Source.notes_none log) steps limits node r.world
  unfold fold
  cases node.isLiteral with
  | true => exact ⟨[], rfl, passed_nil, node, rfl, rfl⟩
  | false =>
    simp only [Bool.false_eq_true, if_false]
    rcases hx : evaluateFresh host Source.none steps limits node r.world with _ | ⟨fault | value, w⟩
    · rw [hx] at hrun
      have hy : evaluateFresh passing Source.none steps limits node r.world = none := hrun
      simp only [hy]
      rfl
    · rw [hx] at hrun
      obtain ⟨events, hlog, hcases⟩ := hrun
      cases fault with
      | interrupted cancelled =>
        refine ⟨events, hlog, hcases.imp_right fun ⟨hpassed, hy⟩ => ⟨hpassed, ?_⟩⟩
        simp only [hy]
      | _ =>
        rcases hcases with ⟨_, _, _, _, hfault⟩ | ⟨hpassed, hy⟩
        · cases hfault
        · refine ⟨events, hlog, hpassed, node, ?_, rfl⟩
          simp only [hy]
    · rw [hx] at hrun
      obtain ⟨events, hlog, hpassed, _, hy, rfl⟩ := hrun
      refine ⟨events, hlog, hpassed, _, ?_, rfl⟩
      simp only [hy]

theorem cut_readNode (options : ReadingOptions) (steps : Nat) (source : String) :
    Run.Cut log Eq (readNode host options steps source) (readNode passing options steps source) := by
  have hcarries := carries_cut h
  have hwhole : Run.Cut (fun r : Reader ω => log r.world) Eq
      (whole host options steps (depthBound source))
      (whole passing options steps (depthBound source)) := by
    refine whole_related_of_finish hcarries rfl ?_ _
    intro g g' hg ho hs hg' ho' hs' node constant
    unfold finish
    rw [hg, ho, hs, hg', ho', hs']
    cases constant && options.foldConstants with
    | true => exact (cut_fold h steps options.limits node).bind fun _ _ hn => hn ▸ hcarries.pure rfl
    | false => exact hcarries.pure rfl
  intro w
  rw [readNode_eq_map, readNode_eq_map]
  exact (hwhole ⟨Cursor.start source, w⟩).map Reader.world fun _ => rfl

end Readings

end Reading

/-! ### Whole runs -/

variable {σ : Type}

/-- The run `logged`, which is the run `plain` with a log, returns the interruption of the first poll that does
not pass, after which it does nothing more that is noted, or it returns exactly what `passing` returns, the
run whose polls all pass. -/
structure Transparent {α : Type} (plain : Run σ α) (logged passing : Run (Log × σ) α) : Prop where
  logs : ∀ world, plain world = (logged ([], world)).map fun r => (r.1, r.2.2)
  cases : ∀ {world outcome events after}, logged ([], world) = some (outcome, events, after) →
    (∃ cancelled earlier, events = .polled (some cancelled) :: earlier ∧ Passed earlier ∧
      outcome = .error (.interrupted cancelled)) ∨
    Passed events ∧ passing ([], world) = some (outcome, events, after)
  cut_short : ∀ {world}, logged ([], world) = none → passing ([], world) = none

theorem transparent_of_cut {α : Type} {plain : Run σ α} {logged passing : Run (Log × σ) α}
    (hlogs : ∀ world, plain world = (logged ([], world)).map fun r => (r.1, r.2.2))
    (h : Run.Cut Prod.fst Eq logged passing) : Transparent plain logged passing where
  logs := hlogs
  cases := by
    intro world outcome events after hrun
    have hcut := h ([], world)
    rw [hrun] at hcut
    cases outcome with
    | error fault =>
      obtain ⟨noted, hlog, hcases⟩ := hcut
      obtain rfl : events = noted := by simpa using hlog
      refine hcases.imp_left ?_
      rintro ⟨cancelled, earlier, hevents, hearlier, rfl⟩
      exact ⟨cancelled, earlier, hevents, hearlier, rfl⟩
    | ok a =>
      obtain ⟨noted, hlog, hpassed, _, hsame, rfl⟩ := hcut
      obtain rfl : events = noted := by simpa using hlog
      exact .inr ⟨hpassed, hsame⟩
  cut_short := by
    intro world hrun
    have hcut := h ([], world)
    rw [hrun] at hcut
    exact hcut

theorem Bindings.notes_logged (v : Bindings σ) : v.logged.source.Notes Prod.fst :=
  fun name w => v.logged_notes name w

theorem Equation.notes_logged (e : Equation σ) : e.logged.source.Notes fun w => w.2.1 := by
  intro name w
  unfold Equation.source Equation.counted
  cases hbound : (e.logged.bindings.get? name).isSome with
  | false =>
    simp only [hbound, Bool.false_eq_true, if_false]
    exact ⟨[], rfl, passed_nil⟩
  | true =>
    by_cases hlimit : resolutionLimit ≤ (w.1.add name).count name
    · simp only [hbound, hlimit, if_true]
      exact ⟨[], rfl, passed_nil⟩
    · simp only [hbound, hlimit, if_true, if_false]
      exact e.bindings.logged_notes name w.2

/-- Whatever the host answers to its polls, reading a text, with folding or without, and evaluating an
expression or an equation under any bindings return the interruption of the first poll that does not pass or
exactly what they return if all polls pass; behind that poll nothing is polled, drawn or asked for. -/
theorem interruptions_transparent (host : Host σ) (steps : Nat) :
    (∀ (options : ReadingOptions) (source : String),
      Transparent (Expression.read host options steps source)
        (Expression.read host.logged options steps source)
        (Expression.read host.passing.logged options steps source)) ∧
    (∀ (e : Expression) (limits : Limits) (v : Bindings σ),
      Transparent (e.evaluateUnder limits host v.source steps)
        (e.evaluateUnder limits host.logged v.logged.source steps)
        (e.evaluateUnder limits host.passing.logged v.logged.source steps)) ∧
    ∀ e : Equation σ,
      Transparent (e.evaluate host steps) (e.logged.evaluate host.logged steps)
        (e.logged.evaluate host.passing.logged steps) := by
  have hhost := host.logs_logged
  refine ⟨fun options source => ?_, fun e limits v => ?_, fun e => ?_⟩
  · refine transparent_of_cut (Expression.read_logged host options steps source []) ?_
    refine (Reading.cut_readNode hhost options steps source).bind ?_
    rintro root _ rfl
    exact Run.cut_ofExcept _
  · exact transparent_of_cut (e.evaluateUnder_logged limits host v steps [])
      (cut_evaluateFresh hhost v.notes_logged steps limits e.root)
  · refine transparent_of_cut (e.evaluate_logged host steps []) ?_
    intro w
    have hrun := cut_evaluateFresh (hhost.onSecond Tally) e.notes_logged steps e.expression.limits
      e.expression.root (Tally.empty, w)
    rw [Equation.evaluate_eq_map, Equation.evaluate_eq_map]
    exact hrun.map Prod.snd fun _ => rfl

end Formulae
