import Formulae.Proofs.Interruption.Idleness
import Formulae.Proofs.Reading.Exactness
import Formulae.Proofs.Reading.Unfolding

/-!
# Proofs.Reading.Termination — every text is read to an end

A text is read with a bound on the rounds of its loops and on the depth of what is nested. More of both
changes nothing about a reading that ends (`follows_level`, `follows_whole`), and without folding every
reading that the host lets pass ends within bounds that the length of the text sets. So a level can be
compared with itself in a setting that gives up wherever it would be entered again without a character
more.

* `Setting.within`: that setting.
* `Advances`: a round of a loop ends it or takes a character.
* `Progresses`: all that happens again within a setting happens behind a character more.
* `readNode_terminates`: the whole text, well-formed or not.
-/

namespace Formulae

open Text Number Grammar

variable {σ : Type}

namespace Reading

/-! ### More rounds and more depth -/

section Bounds

variable {host : Host σ} {options : ReadingOptions} {steps : Nat}

/-- A level in a setting with more rounds, whose nested readings go further, goes further. -/
theorem follows_level {rounds rounds' : Nat} {descend descend' : Entry → Bool → Reading σ Parsed}
    (hrounds : rounds ≤ rounds')
    (hdescend : ∀ entry inside, Run.Follows Eq (descend entry inside) (descend' entry inside))
    (l : Level) (inside : Bool) :
    Run.Follows Eq (level ⟨host, options, steps, rounds, descend⟩ l inside)
      (level ⟨host, options, steps, rounds', descend'⟩ l inside) := by
  have hrelates : Relates Eq (⟨host, options, steps, rounds, descend⟩ : Setting σ)
      ⟨host, options, steps, rounds', descend'⟩ Run.Follows :=
    (carries_follows host).relates (.inr ⟨hrounds, fun _ _ => Run.follows_exhausted⟩) hdescend
      fun _ _ => Run.follows_refl _
  exact hrelates.chains.level l inside

theorem follows_nested {depth depth' : Nat} (hdepth : depth ≤ depth') (entry : Entry) (inside : Bool) :
    Run.Follows Eq (nested host options steps depth entry inside)
      (nested host options steps depth' entry inside) := by
  induction depth generalizing depth' entry inside with
  | zero => exact Run.follows_exhausted
  | succ depth ih =>
    obtain ⟨depth', rfl⟩ : ∃ k, depth' = k + 1 := ⟨depth' - 1, by omega⟩
    have hle : depth ≤ depth' := by omega
    rw [nested_succ, nested_succ]
    exact follows_level hle (fun entry inside => ih hle entry inside) entry.level inside

theorem follows_whole {depth depth' : Nat} (hdepth : depth ≤ depth') :
    Run.Follows Eq (whole host options steps depth) (whole host options steps depth') :=
  whole_related (carries_follows host) rfl (follows_nested hdepth _ _) fun {_ _} hpq =>
    congrArg (fun p : Parsed => Node.finite p.node) hpq

end Bounds

/-! ### Readings that a host lets pass -/

/-- What the idle host reads to an end, a host whose polls all pass reads to the same end. -/
theorem Idles.ends {α β : Type} {rel : α → β → Prop} {x : Reading σ α} {y : Reading Unit β}
    {r : Reader σ} {post : β → Reader Unit → Prop} {fails : Fault → Prop} (h : Idles rel x y)
    (hy : Run.Ends y (r.along fun _ => ()) post fails) :
    Run.Ends x r (fun a t => ∃ b, rel a b ∧ post b (t.along fun _ => ())) fails := by
  have hr := h r
  unfold Run.Ends at hy ⊢
  rcases hrun : x r with _ | ⟨fault | a, t⟩
  · rw [hrun] at hr
    rw [hr.resolve_left id] at hy
    exact hy
  · rw [hrun] at hr
    rw [hr.resolve_left id] at hy
    exact hy
  · rw [hrun] at hr
    obtain ⟨b, hb, hab⟩ := hr
    rw [hb] at hy
    exact ⟨b, hab, hy⟩

/-- Two settings without folding that differ in their hosts: the polls of the first one all pass, and the
second one is idle. -/
structure Idling (g : Setting σ) (g' : Setting Unit) : Prop where
  plain : Plain g'
  carries : Carries g.host g'.host Idles
  unfolded : g.options.foldConstants = false
  rounds : g'.rounds = g.rounds
  descend : ∀ entry inside, Idles Eq (g.descend entry inside) (g'.descend entry inside)

theorem Idling.relates {g : Setting σ} {g' : Setting Unit} (h : Idling g g') : Relates Eq g g' Idles :=
  h.carries.relates (.inl h.rounds.symm) h.descend fun node constant => by
    have hfinish : finish g node constant = pure ⟨node, constant⟩ := by simp [finish, h.unfolded]
    rw [hfinish, finish_of_plain h.plain]
    exact h.carries.pure rfl

theorem idling_setting {host : Host σ} (passes : host.Passes) {options : ReadingOptions}
    (unfolded : options.foldConstants = false) (steps depth : Nat) :
    Idling (setting host options steps depth) (setting Host.idle options steps depth) := by
  have hidling : ∀ depth, (∀ entry inside, Idles Eq (nested host options steps depth entry inside)
      (nested Host.idle options steps depth entry inside)) →
        Idling (setting host options steps depth) (setting Host.idle options steps depth) := by
    intro depth hdescend
    have hplain : Plain (setting Host.idle options steps depth) :=
      ⟨Host.quiet_idle, unfolded, fun entry inside r =>
        ends_nested Host.quiet_idle unfolded depth entry inside r⟩
    exact ⟨hplain, carries_idles passes, unfolded, rfl, hdescend⟩
  exact hidling depth (nested_related (carries_idles passes).toSequences
    (fun depth hdescend => (hidling depth hdescend).relates.chains) depth)

/-- Without folding, a whole text is read to a tree or is a fault of syntax. -/
theorem ends_whole_of_passes {host : Host σ} (passes : host.Passes) {options : ReadingOptions}
    (unfolded : options.foldConstants = false) (steps : Nat) {depth : Nat} {r : Reader σ}
    (hd : r.rest.length < depth) :
    Run.Ends (whole host options steps depth) r (fun _ _ => True) IsSyntactic :=
  ((whole_idles passes options steps depth).ends
    (ends_whole steps Host.quiet_idle unfolded hd)).mono (fun _ _ _ => trivial) fun _ h => h

/-- Depths that the text does not reach all come to the same. -/
theorem whole_eq_of_lt {host : Host σ} (passes : host.Passes) {options : ReadingOptions}
    (unfolded : options.foldConstants = false) (steps : Nat) {depth depth' : Nat} {r : Reader σ}
    (hd : r.rest.length < depth) (hd' : r.rest.length < depth') :
    whole host options steps depth r = whole host options steps depth' r := by
  rcases Nat.le_total depth depth' with hle | hle
  · exact (follows_whole hle).eq_of_ne_none (ends_whole_of_passes passes unfolded steps hd).ne_none
  · exact ((follows_whole hle).eq_of_ne_none
      (ends_whole_of_passes passes unfolded steps hd').ne_none).symm

/-! ### What is nested -/

/-- The setting for a text of `n` characters: a loop has so many rounds, and what is nested is only read
behind at least one of the characters. -/
def Setting.within (g : Setting σ) (n : Nat) : Setting σ :=
  { g with
    rounds := n
    descend := fun entry inside r =>
      if r.rest.length < n then g.descend entry inside r else none }

theorem Setting.within_descend (g : Setting σ) (n : Nat) (entry : Entry) (inside : Bool) (r : Reader σ) :
    (g.within n).descend entry inside r =
      if r.rest.length < n then g.descend entry inside r else none := rfl

theorem plain_within {g : Setting σ} (h : Plain g) {n : Nat} (hn : n ≤ g.rounds) :
    Plain (g.within n) where
  quiet := h.quiet
  unfolded := h.unfolded
  descend entry inside r hr :=
    Run.ends_of_eq (if_pos hr) (h.descend entry inside r (Nat.lt_of_lt_of_le hr hn))

theorem follows_within (g : Setting σ) (n : Nat) (entry : Entry) (inside : Bool) :
    Run.Follows Eq ((g.within n).descend entry inside) (g.descend entry inside) := by
  intro r
  rw [Setting.within_descend]
  by_cases hlt : r.rest.length < n
  · rw [if_pos hlt]
    exact Run.follows_refl _ r
  · rw [if_neg hlt]
    trivial

section Idling

variable {g : Setting σ} {g' : Setting Unit} (h : Idling g g')
include h

theorem Idling.within {n : Nat} (hn : n ≤ g.rounds) : Idling (g.within n) (g'.within n) where
  plain := plain_within h.plain (h.rounds ▸ hn)
  carries := h.carries
  unfolded := h.unfolded
  rounds := rfl
  descend entry inside r := by
    have hsame : (r.along fun _ => ()).rest = r.rest := rfl
    rw [Setting.within_descend, Setting.within_descend, hsame]
    by_cases hlt : r.rest.length < n
    · rw [if_pos hlt, if_pos hlt]
      exact h.descend entry inside r
    · rw [if_neg hlt, if_neg hlt]
      exact .inr rfl

theorem ends_level_of_idling (l : Level) (inside : Bool) {r : Reader σ}
    (hr : r.rest.length ≤ g.rounds) :
    Run.Ends (level g l inside) r (fun _ t => t.rest.length < r.rest.length) IsSyntactic := by
  have hends := (h.relates.chains.level l inside).ends (r := r)
    (ends_level h.plain l (h.rounds ▸ hr))
  refine hends.mono (fun p t htook => ?_) fun _ hfault => hfault
  obtain ⟨_, -, htook⟩ := htook
  exact htook.derives.length_lt

/-- A level reads what is nested in it only behind a character more. -/
theorem level_within {n : Nat} (hn : n ≤ g.rounds) (l : Level) (inside : Bool) {r : Reader σ}
    (hr : r.rest.length ≤ n) : level (g.within n) l inside r = level g l inside r := by
  -- the guarded setting still reads to an end, and what ends is what any wider setting reads
  have hends := ends_level_of_idling (h.within hn) l inside hr
  exact (follows_level hn (follows_within g n) l inside).eq_of_ne_none hends.ne_none

end Idling

/-! ### Rounds -/

section Rounds

variable {α β γ : Type} {loop : Nat → α → Reading σ β} {n : Nat} {r : Reader σ}

/-- A round of a loop: it ends the loop, or the loop goes on with fewer than `n` characters left. -/
def Round (loop : Nat → α → Reading σ β) (n : Nat) (round : Nat → Reading σ β) (r : Reader σ) : Prop :=
  (∃ outcome, ∀ rounds, round rounds r = some outcome) ∨
    ∃ a t, t.rest.length < n ∧ ∀ rounds, round rounds r = loop rounds a t

/-- The next round of the loop ends it or takes at least one character. -/
def Advances (loop : Nat → α → Reading σ β) (a : α) (r : Reader σ) : Prop :=
  Round loop r.rest.length (fun rounds => loop (rounds + 1) a) r

theorem round_of_ends {x : Reading σ β} {fails : Fault → Prop}
    (h : Run.Ends x r (fun _ _ => True) fails) : Round loop n (fun _ => x) r := by
  obtain ⟨outcome, hrun⟩ := Option.ne_none_iff_exists'.mp h.ne_none
  exact .inl ⟨outcome, fun _ => hrun⟩

/-- The rule for a round that starts with a reading that ends. -/
theorem round_bind {x : Reading σ γ} {f : Nat → γ → Reading σ β} {post : γ → Reader σ → Prop}
    {fails : Fault → Prop} (h : Run.Ends x r post fails)
    (hf : ∀ c t, post c t → Round loop n (fun rounds => f rounds c) t) :
    Round loop n (fun rounds => x >>= f rounds) r := by
  unfold Run.Ends at h
  rcases hrun : x r with _ | ⟨fault | c, t⟩
  · rw [hrun] at h
    exact h.elim
  · exact .inl ⟨(.error fault, t), fun _ => Run.bind_of_error hrun⟩
  · rw [hrun] at h
    rcases hf c t h with ⟨outcome, hend⟩ | ⟨a, u, hlt, hon⟩
    · exact .inl ⟨outcome, fun rounds => (Run.bind_of_ok hrun).trans (hend rounds)⟩
    · exact .inr ⟨a, u, hlt, fun rounds => (Run.bind_of_ok hrun).trans (hon rounds)⟩

end Rounds

section Idling

variable {g : Setting σ} {g' : Setting Unit} (h : Idling g g') {inside : Bool} {r : Reader σ}
include h

theorem advances_chain {l : Level} (left : Parsed) (hg : r.rest.length ≤ g.rounds) :
    Advances (chain (moreOperands g l.operators (level g l.tighter inside) (otherwise g inside l)))
      left r := by
  have hmore := (h.relates.chains.moreOperands inside (h.relates.chains.level l.tighter inside) rfl).ends
    (ends_moreOperands (r := r.along fun _ => ()) h.plain left (fun hg => ends_level h.plain l.tighter hg)
      (h.rounds ▸ hg))
  refine round_bind hmore fun more t hpost => ?_
  obtain ⟨_, hsame, -, hpost⟩ := hpost
  cases hsame with
  | none => exact .inl ⟨_, fun _ => rfl⟩
  | some _ => exact .inr ⟨_, t, hpost.1, fun _ => rfl⟩

theorem advances_arguments (opening : Nat) (done : List Parsed) (hg : r.rest.length < g.rounds) :
    Advances (arguments g inside opening) done r := by
  have hskip : Run.Ends (skipBlanks g'.host) (r.along fun _ => ())
      (fun _ t => t.rest.length ≤ r.rest.length) IsSyntactic := by
    refine Run.ends_of_ok (skipBlanks_of_quiet h.plain.quiet _) ?_
    rw [Reader.rest_skipBlanks]
    exact length_afterBlanks_le _
  refine round_bind (h.relates.skipBlanks.ends hskip) fun _ t ht => ?_
  obtain ⟨-, -, hle⟩ := ht
  have hcursor : Run.Ends cursor t (fun _ u => u = t) IsSyntactic := rfl
  refine round_bind hcursor fun c u hu => ?_
  subst hu
  cases c.current with
  | none => exact .inl ⟨_, fun _ => rfl⟩
  | some x =>
    simp only
    by_cases hx : x = ',' ∨ x = ')'
    · simp only [hx, if_true]
      exact .inl ⟨_, fun _ => rfl⟩
    · simp only [hx, if_false]
      have hlt : u.rest.length < g'.rounds := h.rounds ▸ Nat.lt_of_le_of_lt hle hg
      refine round_bind ((h.descend .formula inside).ends (h.plain.descend .formula inside _ hlt))
        fun arg t harg => ?_
      obtain ⟨_, rfl, harg⟩ := harg
      have hshorter := harg.derives.length_lt
      have hcomma : Run.Ends (sees g' ",") (t.along fun _ => ())
          (fun seen v => seen = true → v.rest.length < r.rest.length) IsSyntactic :=
        ends_sees h.plain.quiet (by decide)
          (fun v hat _ _ => Nat.lt_trans hat.length_lt (Nat.lt_of_lt_of_le hshorter hle)) nofun
      refine round_bind ((h.relates.sees ",").ends hcomma) fun seen v hseen => ?_
      obtain ⟨_, rfl, hseen⟩ := hseen
      cases seen with
      | true => exact .inr ⟨arg :: done, v, hseen rfl, fun _ => rfl⟩
      | false =>
        have hclose := (h.relates.close opening).ends (r := v) (ends_close h.plain opening)
        exact round_of_ends (hclose.bind fun _ _ _ => trivial)

end Idling

/-! ### The whole text -/

/-- In the texts that fit the setting, every level ends, and it takes a character if it succeeds. Whatever
is done once more is done behind a character more: the next round of a loop over operators or arguments, and
each reading that is nested in a level. -/
structure Progresses (g : Setting σ) : Prop where
  ends : ∀ (l : Level) (inside : Bool) (r : Reader σ), r.rest.length ≤ g.rounds →
    Run.Ends (level g l inside) r (fun _ t => t.rest.length < r.rest.length) IsSyntactic
  entries : ∀ (l : Level) (inside : Bool) (r : Reader σ), r.rest.length ≤ g.rounds →
    level g l inside r = level (g.within r.rest.length) l inside r
  operators : ∀ (l : Level) (inside : Bool) (left : Parsed) (r : Reader σ), r.rest.length ≤ g.rounds →
    Advances (chain (moreOperands g l.operators (level g l.tighter inside) (otherwise g inside l)))
      left r
  arguments : ∀ (inside : Bool) (opening : Nat) (done : List Parsed) (r : Reader σ),
    r.rest.length < g.rounds → Advances (arguments g inside opening) done r

theorem Idling.progresses {g : Setting σ} {g' : Setting Unit} (h : Idling g g') : Progresses g where
  ends l inside _ hr := ends_level_of_idling h l inside hr
  entries l inside _ hr := (level_within h hr l inside (Nat.le_refl _)).symm
  operators _ _ left _ hr := advances_chain h left hr
  arguments _ opening done _ hr := advances_arguments h opening done hr

end Reading

/-- Without folding and under a host that lets it pass, the reading of any text ends, in a tree or in a fault
of syntax. At every depth of nesting, loops and levels go on only behind a character more; so any bound on the
depth above the length of the text comes to the same. -/
theorem readNode_terminates {host : Host σ} (passes : host.Passes) {options : ReadingOptions}
    (unfolded : options.foldConstants = false) (steps : Nat) :
    (∀ source world, Run.Ends (readNode host options steps source) world (fun _ _ => True)
      Reading.IsSyntactic) ∧
    (∀ depth, Reading.Progresses (Reading.setting host options steps depth)) ∧
    ∀ source world depth, source.length < depth →
      Reading.whole host options steps depth ⟨Cursor.start source, world⟩ =
        Reading.whole host options steps (depthBound source) ⟨Cursor.start source, world⟩ := by
  refine ⟨fun source world => ?_, fun depth => ?_, fun source world depth hdepth => ?_⟩
  · have hbound := length_lt_depthBound source
    exact ends_readNode (Reading.ends_whole_of_passes passes unfolded steps hbound)
  · exact (Reading.idling_setting passes unfolded steps depth).progresses
  · have hlength : source.toList.length < depth := by rwa [String.length_toList]
    exact Reading.whole_eq_of_lt passes unfolded steps hlength (length_lt_depthBound source)

/-- A call that is not closed behind signs and an exponent, at the least depth that is always enough. -/
theorem readNode_terminates_unclosed :
    (Deadline.host ⟨1000, none⟩).Passes ∧
      (Reading.whole (Deadline.host ⟨1000, none⟩) { foldConstants := false } 0 11
          ⟨Cursor.start "max(-2^-(x", World.start 0⟩).map (fun run => (run.1, run.2.world)) =
        some (.error (.syntactic ⟨.unclosedParenthesis, 8, "max(-2^-(x"⟩), World.start 0) := by
  have passes : (Deadline.host ⟨1000, none⟩).Passes := fun world =>
    congrArg Prod.fst (Deadline.quiet_host 1000 (by decide) world)
  have unfolded : ({ foldConstants := false } : ReadingOptions).foldConstants = false := rfl
  obtain ⟨-, -, hdepth⟩ := readNode_terminates passes unfolded 0
  refine ⟨passes, ?_⟩
  rw [hdepth "max(-2^-(x" (World.start 0) 11 (by decide)]
  decide +kernel

end Formulae
