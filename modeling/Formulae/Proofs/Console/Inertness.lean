import Formulae.Console.Session
import Formulae.Proofs.Equation.Inertness
import Formulae.Proofs.Equation.Resolutions

/-!
# Proofs.Console.Inertness — command lines whose limit on substitutions has no effect

A line is evaluated as an equation, and the bindings of a session are formulas. So from
`Equation.resolutionLimit` up, the limit that a command line gives is noted with the formulas that are read, and
changes nothing else.

* `Expression.allowing`, `Bindings.allowing`, `Session.allowing`: the same with another limit noted.
* `Session.start_allowing`, `Session.interpret_allowing`: one session runs like the other.
* `Equation.limit_inert`: equations, and whole programs.
-/

namespace Formulae

variable {σ : Type}

/-- The formula with another limit on substitutions noted. -/
def Expression.allowing (e : Expression) (m : Nat) : Expression :=
  { e with limits := e.limits.allowing m }

/-! ### Bindings -/

/-- A formula with another limit noted, or the same value or supplier. -/
def Binding.allowing (m : Nat) : Binding σ → Binding σ
  | .formula e => .formula (e.allowing m)
  | b => b

namespace Bindings

theorem getIn_map (f : Binding σ → Binding σ) (entries : List (String × Binding σ)) (name : String) :
    getIn (entries.map fun entry => (entry.1, f entry.2)) name = (getIn entries name).map f := by
  induction entries with
  | nil => rfl
  | cons entry rest ih =>
    obtain ⟨key, b⟩ := entry
    by_cases hkey : key = name <;> simp [getIn, hkey, ih]

theorem setIn_map (f : Binding σ → Binding σ) (entries : List (String × Binding σ)) (name : String)
    (b : Binding σ) : (setIn entries name b).map (fun entry => (entry.1, f entry.2)) =
      setIn (entries.map fun entry => (entry.1, f entry.2)) name (f b) := by
  induction entries with
  | nil => rfl
  | cons entry rest ih =>
    obtain ⟨key, old⟩ := entry
    by_cases hkey : key = name <;> simp [setIn, hkey, ih]

/-- The bindings with another limit noted for each formula. -/
def allowing (v : Bindings σ) (m : Nat) : Bindings σ :=
  ⟨v.entries.map fun entry => (entry.1, entry.2.allowing m)⟩

variable (v : Bindings σ) (m : Nat)

theorem get?_allowing (name : String) :
    (v.allowing m).get? name = (v.get? name).map (Binding.allowing m) :=
  getIn_map (Binding.allowing m) v.entries name

theorem set_allowing (name : String) (b : Binding σ) :
    (v.set name b).allowing m = (v.allowing m).set name (b.allowing m) :=
  congrArg Bindings.mk (setIn_map (Binding.allowing m) v.entries name b)

/-- What is supplied does not depend on the limits noted. -/
theorem source_allowing : (v.allowing m).source = v.source := by
  funext name world
  unfold source
  rw [get?_allowing]
  rcases v.get? name with _ | _ | _ | _ <;> rfl

end Bindings

/-- The equation with another limit noted for all its formulas. -/
def Equation.allowing (e : Equation σ) (m : Nat) : Equation σ :=
  ⟨e.expression.allowing m, e.bindings.allowing m⟩

theorem Equation.evaluate_bindings_allowing (e : Expression) (v : Bindings σ) (m : Nat) (host : Host σ)
    (steps : Nat) :
    (Equation.mk e (v.allowing m)).evaluate host steps = (Equation.mk e v).evaluate host steps := by
  have hsource : (Equation.mk e (v.allowing m)).source = (Equation.mk e v).source := by
    unfold Equation.source
    simp only [v.source_allowing, v.get?_allowing, Option.isSome_map]
  funext world
  rw [evaluate_eq_map, evaluate_eq_map, hsource]

namespace Console

/-- The command line with another limit on substitutions. -/
def Arguments.allowing (a : Arguments) (m : Nat) : Arguments :=
  { a with substitutions := some m }

/-! ### Reading formulas -/

/-- Formulas that were read for bindings, with another limit noted. -/
def allowingAll (m : Nat) (bindings : List (String × Expression)) : List (String × Expression) :=
  bindings.map fun binding => (binding.1, binding.2.allowing m)

section Reading

variable {a : Arguments} {m : Nat} (hlimit : 1 ≤ a.limits.substitutions) (hm : 1 ≤ m)
include hlimit hm

theorem readFormula_allowing (steps : Nat) (text : String) (world : World) :
    readFormula (a.allowing m) steps text world =
      ((readFormula a steps text world).1.map (·.allowing m), (readFormula a steps text world).2) := by
  have hread := congrFun (Reading.readNode_allowing (Deadline.host ⟨a.deadline, none⟩) (readingOptions a)
    steps hlimit hm text) world
  have hoptions : readingOptions (a.allowing m) =
      { readingOptions a with limits := (readingOptions a).limits.allowing m } := rfl
  unfold readFormula settle Expression.read
  rw [hoptions]
  show Option.getD ((readNode (Deadline.host ⟨a.deadline, none⟩) _ steps text >>= _) world) _ = _
  rw [Run.bind_apply, Run.bind_apply, hread]
  rcases readNode (Deadline.host ⟨a.deadline, none⟩) (readingOptions a) steps text world with
    _ | ⟨_ | root, after⟩ <;> rfl

theorem readBindings_allowing (steps : Nat) (bindings : List (String × String)) (world : World) :
    readBindings (a.allowing m) steps bindings world =
      ((readBindings a steps bindings world).1.map (allowingAll m),
        (readBindings a steps bindings world).2) := by
  induction bindings generalizing world with
  | nil => rfl
  | cons binding rest ih =>
    obtain ⟨name, text⟩ := binding
    simp only [readBindings, readFormula_allowing hlimit hm]
    rcases readFormula a steps text world with ⟨_ | e, between⟩
    · rfl
    · simp only [Except.map, ih]
      rcases readBindings a steps rest between with ⟨_ | expressions, after⟩ <;> rfl

end Reading

/-- What is read notes the limits under which it is read. -/
theorem limits_of_readFormula {a : Arguments} {steps : Nat} {text : String} {world after : World}
    {e : Expression} (h : readFormula a steps text world = (.ok e, after)) : e.limits = a.limits := by
  unfold readFormula settle Expression.read at h
  rw [Run.bind_apply] at h
  rcases hroot : readNode (Deadline.host ⟨a.deadline, none⟩) (readingOptions a) steps text world with
    _ | ⟨_ | root, between⟩
  · rw [hroot] at h
    cases h
  · rw [hroot] at h
    cases h
  · rw [hroot] at h
    cases h
    rfl

/-! ### Sessions -/

namespace Session

/-- The session with another limit on substitutions. -/
def allowing (s : Session) (m : Nat) : Session :=
  ⟨s.arguments.allowing m, allowingAll m s.bindings, s.colours, s.steps⟩

/-- A command line starts the same session, but for the limit, if both limits are in their range. -/
theorem start_allowing {a : Arguments} {m : Nat} (valid : a.limits.validate = .ok a.limits)
    (valid' : (a.limits.allowing m).validate = .ok (a.limits.allowing m)) (colours : Bool) (steps : Nat)
    (world : World) :
    start colours steps (a.allowing m) world =
      ((start colours steps a world).1.map (·.allowing m), (start colours steps a world).2) := by
  obtain ⟨hlimit, -, -⟩ := Limits.validate_eq_ok_iff.mp valid
  obtain ⟨hm : 2 ≤ m, -, -⟩ := Limits.validate_eq_ok_iff.mp valid'
  have hlimits : (a.allowing m).limits = a.limits.allowing m := rfl
  have hbindings : (a.allowing m).bindings = a.bindings := rfl
  have hread := readBindings_allowing (Nat.le_of_succ_le hlimit) (Nat.le_of_succ_le hm) steps a.bindings
    world
  unfold start
  rw [hlimits, valid, valid', hbindings]
  simp only [hread]
  rcases readBindings a steps a.bindings world with ⟨_ | expressions, after⟩ <;> rfl

/-- Each line is the same equation, with another limit noted. -/
theorem equation_allowing (s : Session) (e : Expression) (m : Nat) :
    (s.allowing m).equation (e.allowing m) = (s.equation e).allowing m := by
  have hstart : Equation.ofExpression (e.allowing m) =
      (Equation.ofExpression e : Equation World).allowing m := rfl
  show ((s.bindings.map _).foldl _ _ : Equation World) = (s.bindings.foldl _ _ : Equation World).allowing m
  rw [List.foldl_map, hstart]
  refine List.foldl_hom (Equation.allowing · m) fun eq binding => ?_
  exact congrArg (Equation.mk _) (eq.bindings.set_allowing m binding.1 (.formula binding.2)).symm

/-- The formula is that of the line, and its names stand for formulas. -/
theorem equation_spec (s : Session) (e : Expression) :
    (s.equation e).expression = e ∧
      ∀ name ask, (s.equation e).bindings.get? name ≠ some (.supplier ask) := by
  refine List.foldlRecOn (motive := fun eq : Equation World => eq.expression = e ∧
    ∀ name ask, eq.bindings.get? name ≠ some (.supplier ask)) s.bindings _ ⟨rfl, nofun⟩ ?_
  intro eq ⟨hexpression, hformulas⟩ binding _
  refine ⟨hexpression, fun name ask => ?_⟩
  show (eq.bindings.set binding.1 (.formula binding.2)).get? name ≠ _
  by_cases hname : binding.1 = name
  · subst hname
    rw [Bindings.get?_set_self]
    nofun
  · rw [Bindings.get?_set_of_ne _ _ hname]
    exact hformulas name ask

/-- A line is evaluated in the same way. -/
theorem evaluate_equation_allowing (s : Session) {e : Expression} {m : Nat}
    (hlimit : Equation.resolutionLimit ≤ e.limits.substitutions) (hm : Equation.resolutionLimit ≤ m)
    (host : Host World) (steps : Nat) :
    ((s.allowing m).equation (e.allowing m)).evaluate host steps = (s.equation e).evaluate host steps := by
  obtain ⟨hexpression, hformulas⟩ := s.equation_spec e
  have candid : (s.equation e).bindings.Candid := fun name ask hname => (hformulas name ask hname).elim
  rw [← hexpression] at hlimit
  calc ((s.allowing m).equation (e.allowing m)).evaluate host steps
      = ((s.equation e).allowing m).evaluate host steps := by rw [equation_allowing]
    _ = ((s.equation e).under ((s.equation e).expression.limits.allowing m)).evaluate host steps :=
        Equation.evaluate_bindings_allowing _ _ m host steps
    _ = (s.equation e).evaluate host steps := Equation.evaluate_allowing candid hlimit hm host steps

/-- A line prints the same. -/
theorem interpret_allowing (s : Session) {m : Nat}
    (hlimit : Equation.resolutionLimit ≤ s.arguments.limits.substitutions)
    (hm : Equation.resolutionLimit ≤ m) (line : String) (world : World) :
    (s.allowing m).interpret line world = s.interpret line world := by
  have hpos : 1 ≤ Equation.resolutionLimit := by decide
  have harguments : (s.allowing m).arguments = s.arguments.allowing m := rfl
  have hsteps : (s.allowing m).steps = s.steps := rfl
  unfold interpret
  split
  · rfl
  · rw [harguments, hsteps, readFormula_allowing (hpos.trans hlimit) (hpos.trans hm) s.steps line world]
    rcases hformula : readFormula s.arguments s.steps line world with ⟨_ | e, between⟩
    · rfl
    · have hlimit' : Equation.resolutionLimit ≤ e.limits.substitutions := by
        rwa [limits_of_readFormula hformula]
      simp only [Except.map, evaluate_equation_allowing s hlimit' hm]
      rfl

theorem interpretAll_allowing (s : Session) {m : Nat}
    (hlimit : Equation.resolutionLimit ≤ s.arguments.limits.substitutions)
    (hm : Equation.resolutionLimit ≤ m) (lines : List String) (world : World) :
    (s.allowing m).interpretAll lines world = s.interpretAll lines world := by
  induction lines generalizing world with
  | nil => rfl
  | cons line rest ih => simp only [interpretAll, interpret_allowing s hlimit hm, ih]

end Session

/-! ### Whole programs -/

/-- A program prints the same and ends in the same way. -/
theorem runProgram_allowing {args args' : List String} {a : Arguments} {m : Nat}
    (hargs : readArguments args = .ok a) (hargs' : readArguments args' = .ok (a.allowing m))
    (valid : a.limits.validate = .ok a.limits)
    (valid' : (a.limits.allowing m).validate = .ok (a.limits.allowing m))
    (hlimit : Equation.resolutionLimit ≤ a.limits.substitutions) (hm : Equation.resolutionLimit ≤ m)
    (colours : Bool) (steps : Nat) (input : String) (world : World) :
    runProgram colours steps args' input world = runProgram colours steps args input world := by
  have hstart := Session.start_allowing valid valid' colours steps world
  unfold runProgram startProgram
  rw [hargs, hargs']
  simp only [hstart]
  rcases hsession : Session.start colours steps a world with ⟨_ | s, after⟩
  · rfl
  · have harguments : s.arguments = a := by
      unfold Session.start at hsession
      rw [valid] at hsession
      rcases hread : readBindings a steps a.bindings world with ⟨_ | expressions, between⟩
      · simp only [hread] at hsession
        cases hsession
      · simp only [hread] at hsession
        cases hsession
        rfl
    have hlimit' : Equation.resolutionLimit ≤ s.arguments.limits.substitutions := by
      rwa [harguments]
    have hformula : (s.allowing m).arguments.formula = s.arguments.formula := rfl
    simp only [Except.map, hformula, s.interpret_allowing hlimit' hm, s.interpretAll_allowing hlimit' hm]

end Console

/-- In an equation the limit on substitutions has no effect from 500 up. If no supplier answers with its fault,
the run of an equation under such a limit does not end in it, and comes to the same under any other such limit:
in the same steps, to the same value or fault, and in the same world, which every supplier that was asked has
changed. So two command lines that differ in such a limit only print the same for the same input, and end in
the same way. -/
theorem Equation.limit_inert (host : Host σ) (steps : Nat) :
    (∀ e : Equation σ, e.bindings.Candid → 500 ≤ e.expression.limits.substitutions →
      (∀ world name limit after,
        e.evaluate host steps world ≠ some (.error (.domain (.recursiveVariable name limit)), after)) ∧
      ∀ m, 500 ≤ m →
        (e.under (e.expression.limits.allowing m)).evaluate host steps = e.evaluate host steps) ∧
    ∀ args args' a m, Console.readArguments args = .ok a →
      Console.readArguments args' = .ok (a.allowing m) →
      500 ≤ a.limits.substitutions → a.limits.substitutions ≤ 1000 → 500 ≤ m → m ≤ 1000 →
      ∀ colours input world, Console.runProgram colours steps args' input world =
        Console.runProgram colours steps args input world := by
  refine ⟨fun e candid hlimit => ⟨fun world name limit after hrun => ?_, fun m hm => ?_⟩, ?_⟩
  · exact evaluate_not_recursion candid hlimit hrun ⟨name, limit, rfl⟩
  · exact evaluate_allowing candid hlimit hm host steps
  · intro args args' a m hargs hargs' hlimit hlimit' hm hm' colours input world
    have valid : a.limits.validate = .ok a.limits :=
      Limits.validate_eq_ok_iff.mpr ⟨by omega, hlimit', rfl⟩
    have valid' : (a.limits.allowing m).validate = .ok (a.limits.allowing m) :=
      Limits.validate_eq_ok_iff.mpr ⟨show 2 ≤ m by omega, hm', rfl⟩
    exact Console.runProgram_allowing hargs hargs' valid valid' hlimit hm colours steps input world

theorem Equation.candid_cycle : cycle.bindings.Candid := by
  intro name ask hname
  by_cases hx : "x" = name
  · subst hx
    cases hname
  · rw [show cycle.bindings.get? name = none from if_neg hx] at hname
    cases hname

/-- A cycle ends at the limit of the equation under 1000 substitutions, so it does under 500; under 499 it is
refused before. -/
theorem Equation.limit_inert_cycle :
    (cycle.under (cycle.expression.limits.allowing 500)).evaluate Host.idle 502 () =
        some (.error (.overused "x" 500), ()) ∧
      (cycle.under (cycle.expression.limits.allowing 499)).evaluate Host.idle 502 () =
        some (.error (.domain (.recursiveVariable "x" 499)), ()) ∧
      Console.runProgram false 502 ["--max-recursion", "500", "--var", "x = x", "x"] "" (World.start 0) =
        Console.runProgram false 502 ["--var", "x = x", "x"] "" (World.start 0) := by
  obtain ⟨hequation, hprogram⟩ := limit_inert Host.idle 502
  refine ⟨?_, ?_, ?_⟩
  · have hcycle : cycle.evaluate Host.idle 502 () = some (.error (.overused "x" 500), ()) := by
      decide +kernel
    rw [(hequation cycle candid_cycle (by decide)).2 500 (by decide), hcycle]
  · decide +kernel
  · exact hprogram _ _ { bindings := [("x", "x")], formula := some "x" } 500 (by rfl) (by rfl) (by decide)
      (by decide) (by decide) (by decide) false "" (World.start 0)

end Formulae
