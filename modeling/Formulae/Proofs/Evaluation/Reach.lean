import Formulae.Proofs.Equation.Agreement
import Formulae.Proofs.Evaluation.Frame
import Formulae.Proofs.Evaluation.Substitution

/-!
# Proofs.Evaluation.Reach — the bindings that an evaluation can come to

An evaluation asks for what its tree mentions, and for what the formulas behind these names mention in turn.
The index of a summation is not asked for in its body, whatever it is bound to. So two bindings that agree on
the names within reach are interchangeable, whatever else they bind.

* `Node.Reaches`: the names within reach.
* `Source.AgreeOn`: two sources that agree on a set of names, which formulas behind them do not leave.
* `Coincides`: evaluations that come to the same, inside of bodies or anywhere.
* `Expression.evaluate_of_agree`: formulas and equations under bindings that agree on what is within reach.
-/

namespace Formulae

open Evaluation

variable {σ : Type}

/-- The names that the tree leads to: those that it mentions, and whatever a formula mentions that a name
within reach stands for. -/
inductive Node.Reaches (v : Bindings σ) (node : Node) : String → Prop where
  | mention {inBody : Bool} {name : String} (h : node.Mentions inBody name) : Reaches v node name
  | through {name other : String} {e : Expression} {inBody : Bool} (above : Reaches v node name)
      (bound : v.get? name = some (.formula e)) (h : e.root.Mentions inBody other) : Reaches v node other

/-- The sources supply the same for these names, and the formulas behind them mention no others. -/
structure Source.AgreeOn (names : String → Prop) (source source' : Source σ) : Prop where
  same : ∀ name, names name → ∀ world, source' name world = source name world
  closed : ∀ name, names name → ∀ {world after : σ} {root : Node},
    source name world = (.formula root, after) → ∀ inBody other, root.Mentions inBody other → names other

/-! ### Evaluations that come to the same -/

/-- The evaluations come to the same; in a body they start with an index. The first one leaves the index as it
is, so what follows starts with one too. -/
structure Coincides (host : Host σ) (source : Source σ) (inBody : Bool) (α : Type)
    (x y : Evaluation σ α) : Prop where
  framed : Framed host source α x
  same : ∀ ctx, (inBody = true → ctx.index.isSome = true) → y ctx = x ctx

section Coincides

variable {host : Host σ} {source source' : Source σ} {inBody : Bool} {α β : Type}

theorem Coincides.of_eq {x : Evaluation σ α} (h : Framed host source α x) :
    Coincides host source inBody α x x :=
  ⟨h, fun _ _ => rfl⟩

theorem Coincides.bind {x y : Evaluation σ α} {f g : α → Evaluation σ β}
    (h : Coincides host source inBody α x y) (hf : ∀ a, Coincides host source inBody β (f a) (g a)) :
    Coincides host source inBody β (x >>= f) (y >>= g) where
  framed := h.framed.bind fun a => (hf a).framed
  same ctx hin := by
    rw [Run.bind_apply, Run.bind_apply, h.same ctx hin]
    rcases hx : x ctx with _ | ⟨fault | a, mid⟩
    · rfl
    · rfl
    · have hmid : mid.index = ctx.index := (h.framed ctx _ mid hx).index
      exact (hf a).same mid (hmid ▸ hin)

/-- In the scope of an iteration there is an index. -/
theorem Coincides.inScope (index : Float) {x y : Evaluation σ Float}
    (h : Coincides host source true Float x y) :
    Coincides host source inBody Float (inScope index x) (inScope index y) where
  framed := framed_inScope index h.framed
  same ctx _ := by
    rw [inScope_eq_map, inScope_eq_map, h.same (ctx.within index) fun _ => rfl]

theorem loops_coincides (host : Host σ) (source source' : Source σ)
    (enter enter' : Node → Evaluation σ Float) (steps : Nat) (inBody : Bool) :
    Loops ⟨host, source, enter, steps⟩ ⟨host, source', enter', steps⟩ Eq
      (Coincides host source inBody) where
  ofExcept _ := .of_eq (framed_ofExcept _)
  bind := Coincides.bind
  limit := .of_eq (framed_read _)
  poll := .of_eq framed_poll
  exhausted hmore hy := by
    rw [hy hmore.symm]
    exact .of_eq nofun
  succ h := ⟨_, h.symm, rfl⟩
  steps := rfl

/-- In a body the index is read off the context. -/
theorem coincides_index {enter enter' : Node → Evaluation σ Float}
    (henter : ∀ root, Framed host source Float (enter root)) :
    Coincides host source true Float (resolve source enter summationIndex)
      (resolve source' enter' summationIndex) where
  framed := framed_resolve henter summationIndex
  same ctx hin := by
    obtain ⟨index, hindex⟩ := Option.isSome_iff_exists.mp (hin rfl)
    have hbound : ctx.boundIndex? summationIndex = some index := by
      rw [Context.boundIndex?, if_pos rfl, hindex]
    rw [resolve_of_index _ _ hbound, resolve_of_index _ _ hbound]

variable {names : String → Prop} (agree : Source.AgreeOn names source source')
include agree

theorem coincides_resolve {enter enter' : Node → Evaluation σ Float}
    (framed : ∀ root, Framed host source Float (enter root))
    (henter : ∀ root, (∀ inBody name, root.Mentions inBody name → names name) →
      Coincides host source false Float (enter root) (enter' root))
    {name : String} (hname : names name) :
    Coincides host source inBody Float (resolve source enter name) (resolve source' enter' name) where
  framed := framed_resolve framed name
  same ctx _ := by
    rcases hindex : ctx.boundIndex? name with _ | index
    · by_cases hlimit : ctx.limits.substitutions < (ctx.hit name).hits.count name
      · rw [resolve_of_refused _ _ hindex hlimit, resolve_of_refused _ _ hindex hlimit]
      · rcases hfound : source name ctx.world with ⟨found, world⟩
        rw [resolve_of_found _ _ hindex hlimit hfound,
          resolve_of_found _ _ hindex hlimit ((agree.same name hname ctx.world).trans hfound)]
        cases found with
        | unbound | value => rfl
        | formula root => exact (henter root (agree.closed name hname hfound)).same _ nofun
    · rw [resolve_of_index _ _ hindex, resolve_of_index _ _ hindex]

/-- Under sources that agree on whatever the tree leads to, its evaluations come to the same. -/
theorem coincides_evaluate (steps : Nat) {node : Node}
    (hnode : ∀ inBody name, node.Mentions inBody name → names name) :
    Coincides host source false Float (evaluate host source steps node)
      (evaluate host source' steps node) := by
  induction steps generalizing node with
  | zero => exact .of_eq nofun
  | succ steps ih =>
    have framed := framed_evaluate host source steps
    have hloops := loops_coincides host source source' (evaluate host source steps)
      (evaluate host source' steps) steps
    refine Composes.of_leaves (fun inBody => (hloops inBody).composes)
      (fun _ index _ _ h => h.inScope index) node false ?_
    rintro ⟨leaf, inBody⟩ hl
    have hleaf := Node.childrenReversed_of_mem_leaves hl
    cases leaf with
    | number | constant => exact (hloops inBody).ofExcept (operational_ok _)
    | random => exact .of_eq framed_draw
    | reference name inSummation =>
      refine (hloops inBody).composes.reference name inSummation ?_
      by_cases hindex : inBody = true ∧ name = summationIndex
      · obtain ⟨rfl, rfl⟩ := hindex
        exact coincides_index framed
      · exact coincides_resolve agree framed (fun _ => ih) (hnode inBody name ⟨⟨inSummation, hl⟩, hindex⟩)
    | _ => cases hleaf

theorem evaluateFresh_of_agreeOn (host : Host σ) (limits : Limits) (steps : Nat) {node : Node}
    (hnode : ∀ inBody name, node.Mentions inBody name → names name) :
    evaluateFresh host source' steps limits node = evaluateFresh host source steps limits node := by
  funext world
  rw [evaluateFresh_eq_map, evaluateFresh_eq_map, (coincides_evaluate agree steps hnode).same _ nofun]

/-- Counts beside the world keep the agreement, where the same of these names are counted. -/
theorem Source.AgreeOn.counted (limit : Nat) {isBound isBound' : String → Bool}
    (hbound : ∀ name, names name → isBound' name = isBound name) :
    Source.AgreeOn names (Equation.counted limit isBound source)
      (Equation.counted limit isBound' source') where
  same name hname := by
    rintro ⟨tally, world⟩
    simp only [Equation.counted, hbound name hname, agree.same name hname world]
  closed name hname := by
    rintro ⟨tally, world⟩ after root hfound
    rcases Equation.counted_cases limit isBound source name (tally, world) with hcase | hcase | hcase
    · rw [hcase] at hfound
      cases hfound
    · rw [hcase] at hfound
      cases hfound
    · obtain ⟨hroot, -⟩ := Prod.mk.inj (hcase.symm.trans hfound)
      have hsupplied : source name world = (.formula root, (source name world).2) := Prod.ext hroot rfl
      exact agree.closed name hname hsupplied

end Coincides

/-! ### Bindings -/

namespace Bindings

variable {v v' : Bindings σ} {node : Node}

/-- The bindings supply the same for every name within reach, in every world: the same values, what the same
suppliers answer, formulas with the same trees. -/
def AgreeOn (node : Node) (v v' : Bindings σ) : Prop :=
  ∀ name, node.Reaches v name → ∀ world, v'.source name world = v.source name world

theorem source_of_formula {name : String} {e : Expression} (h : v.get? name = some (.formula e))
    (world : σ) : v.source name world = (.formula e.root, world) := by
  unfold source
  rw [h]
  rfl

theorem source_eq_unbound_iff {name : String} {world : σ} :
    (v.source name world).1 = .unbound ↔ v.get? name = none := by
  unfold source
  rcases v.get? name with _ | _ | _ | _ <;> simp [Binding.look]

theorem AgreeOn.isSome_eq (h : AgreeOn node v v') {name : String} (hname : node.Reaches v name)
    (world : σ) : (v'.get? name).isSome = (v.get? name).isSome := by
  have hiff : (v'.source name world).1 = .unbound ↔ v'.get? name = none := v'.source_eq_unbound_iff
  rw [h name hname world, v.source_eq_unbound_iff] at hiff
  rw [← Option.not_isNone, ← Option.not_isNone, Bool.eq_iff_iff]
  simp only [Bool.not_eq_true', Option.isNone_eq_false_iff, Option.isSome_iff_ne_none]
  exact not_congr hiff.symm

theorem AgreeOn.sources (h : AgreeOn node v v') : Source.AgreeOn (node.Reaches v) v.source v'.source where
  same := h
  closed name hname world after root hfound inBody other hother := by
    obtain ⟨e, he, rfl, -⟩ := source_eq_formula hfound
    exact .through hname he hother

/-- What is within reach does not depend on which of the bindings are followed. -/
theorem AgreeOn.reaches_iff [Nonempty σ] (h : AgreeOn node v v') (name : String) :
    node.Reaches v' name ↔ node.Reaches v name := by
  obtain ⟨world⟩ := ‹Nonempty σ›
  constructor
  · intro hreach
    induction hreach with
    | mention hmention => exact .mention hmention
    | through _ bound hmention ih =>
      have hfound := (h _ ih world).symm.trans (source_of_formula bound world)
      obtain ⟨e, he, hroot, -⟩ := source_eq_formula hfound
      exact .through ih he (hroot ▸ hmention)
  · intro hreach
    induction hreach with
    | mention hmention => exact .mention hmention
    | through above bound hmention ih =>
      have hfound := (h _ above world).trans (source_of_formula bound world)
      obtain ⟨e, he, hroot, -⟩ := source_eq_formula hfound
      exact .through ih he (hroot ▸ hmention)

end Bindings

/-! ### Formulas and equations -/

namespace Expression

/-- A value depends only on the bindings within reach. Let other bindings agree with these on every name that
the tree leads to, whatever else they bind, rebind or leave out. Then the same names are within reach of them.
Under any limits and any host the formula comes to the same value or fault under both, in the same steps, and
in the same world, which every supplier that was asked has changed; and so does the equation. -/
theorem evaluate_of_agree (e : Expression) (v v' : Bindings σ) (agree : Bindings.AgreeOn e.root v v')
    (limits : Limits) (host : Host σ) (steps : Nat) (world : σ) :
    (∀ name, e.root.Reaches v' name ↔ e.root.Reaches v name) ∧
    e.evaluateUnder limits host v'.source steps world = e.evaluateUnder limits host v.source steps world ∧
    (Equation.mk { e with limits } v').evaluate host steps world =
      (Equation.mk { e with limits } v).evaluate host steps world := by
  have hsources := agree.sources
  have hroot : ∀ inBody name, e.root.Mentions inBody name → e.root.Reaches v name :=
    fun _ _ hname => .mention hname
  refine ⟨have : Nonempty σ := ⟨world⟩; agree.reaches_iff, ?_, ?_⟩
  · exact congrFun (evaluateFresh_of_agreeOn hsources host limits steps hroot) world
  · have hcounted := hsources.counted Equation.resolutionLimit
      (fun name hname => agree.isSome_eq hname world)
    rw [Equation.evaluate_eq_map, Equation.evaluate_eq_map]
    exact congrArg _ (congrFun
      (evaluateFresh_of_agreeOn hcounted (host.onSecond Tally) limits steps hroot) (Tally.empty, world))

/-- A name beside a sum over the index times another name. -/
def beside : Expression :=
  ⟨"x + sum(1, 2, n * y)", .finite (.binary .add (.reference "x" false)
    (.summation (.number 1.0) (.number 2.0)
      (.binary .mul (.reference "n" true) (.reference "y" true)))), {}⟩

/-- The first name stands for twice a third one; the index is bound as well. -/
def indexed : Bindings Unit :=
  ⟨[("x", .formula ⟨"2 * z", .finite (.binary .mul (.number 2.0) (.reference "z" false)), {}⟩),
    ("y", .value 3.0), ("z", .value 5.0), ("n", .value 7.0)]⟩

/-- The same names with other limits, no index, and a further name. -/
def unindexed : Bindings Unit :=
  ⟨[("w", .value 1.0), ("z", .value 5.0), ("y", .value 3.0),
    ("x", .formula ⟨"2z", .finite (.binary .mul (.number 2.0) (.reference "z" false)), ⟨2, 0⟩⟩)]⟩

theorem reaches_beside {name : String} (h : beside.root.Reaches indexed name) :
    name ∈ ["x", "y", "z"] := by
  induction h with
  | @mention inBody name h =>
    obtain ⟨⟨inSummation, hleaf⟩, hindex⟩ := h
    have hleaves : beside.root.leaves false = [(.reference "x" false, false), (.number 1.0, false),
      (.number 2.0, false), (.reference "n" true, true), (.reference "y" true, true)] := rfl
    simp only [hleaves, List.mem_cons, Prod.mk.injEq, Node.reference.injEq, reduceCtorEq, false_and,
      false_or, List.not_mem_nil, or_false] at hleaf
    rcases hleaf with ⟨⟨rfl, -⟩, -⟩ | ⟨⟨rfl, -⟩, rfl⟩ | ⟨⟨rfl, -⟩, -⟩
    · simp
    · exact absurd ⟨rfl, rfl⟩ hindex
    · simp
  | @through name other e inBody above bound h ih =>
    simp only [List.mem_cons, List.not_mem_nil, or_false] at ih
    rcases ih with rfl | rfl | rfl
    · obtain rfl : (⟨"2 * z", .finite (.binary .mul (.number 2.0) (.reference "z" false)), {}⟩ :
        Expression) = e := by
        simpa using (show some _ = some (Binding.formula e) from bound)
      obtain ⟨⟨inSummation, hleaf⟩, -⟩ := h
      obtain ⟨⟨rfl, -⟩, -⟩ : (other = "z" ∧ inSummation = false) ∧ inBody = false := by
        simpa [Node.leaves] using hleaf
      simp
    · cases (show some (Binding.value 3.0) = some (Binding.formula e) from bound)
    · cases (show some (Binding.value 5.0) = some (Binding.formula e) from bound)

/-- The index is not within reach, nor is any name that only the second bindings bind. -/
theorem evaluate_of_agree_unindexed :
    Bindings.AgreeOn beside.root indexed unindexed ∧
      (Equation.mk beside unindexed).evaluate Host.idle 9 () = some (.ok 19.0, ()) := by
  have hagree : Bindings.AgreeOn beside.root indexed unindexed := by
    intro name hname world
    have hmem := reaches_beside hname
    simp only [List.mem_cons, List.not_mem_nil, or_false] at hmem
    rcases hmem with rfl | rfl | rfl <;> rfl
  refine ⟨hagree, ?_⟩
  have hvalue : (Equation.mk beside indexed).evaluate Host.idle 9 () = some (.ok 19.0, ()) := by
    decide +kernel
  exact (evaluate_of_agree beside indexed unindexed hagree {} Host.idle 9 ()).2.2.trans hvalue

end Expression

end Formulae
