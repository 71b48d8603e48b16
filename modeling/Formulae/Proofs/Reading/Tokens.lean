import Mathlib.Data.List.Nodup
import Formulae.Proofs.Reading.Cursor
import Formulae.Proofs.Reading.Levels

/-!
# Proofs.Reading.Tokens — what a reading takes are tokens

Under a quiet host, what a reading takes from the text is a token of the grammar and the other way
round.

* `firstSeen_cons`: the spelling that a reading takes from a table is the first that comes next; in a table
  with longer spellings first (`longestFirst`) that is the sign that comes next (`ends_firstSeen`,
  `firstSeen_of_signAt`).
* `numeral_of_quiet`, `named_of_quiet`: numerals and names.
-/

namespace Formulae

open Text Number Grammar

variable {σ : Type}

namespace Grammar

/-- A sign that begins no longer one is next as soon as the text starts with it. -/
theorem signAt_of_prefix {sign : String} {text : List Char} (mem : sign ∈ signs)
    (longest : ∀ other ∈ signs, sign.toList <+: other.toList →
      ¬ other.toList <+: afterBlanks text ∨ other = sign)
    (next : sign.toList <+: afterBlanks text) :
    SignAt sign text ((afterBlanks text).drop sign.toList.length) := by
  refine ⟨mem, ?_, fun other ho hp => ?_⟩
  · obtain ⟨rest, hr⟩ := next
    rw [← hr, List.drop_left]
  · by_contra hlt
    have hs : sign.toList <+: other.toList :=
      List.prefix_of_prefix_length_le next hp (by omega)
    rcases longest other ho hs with h | rfl
    · exact h hp
    · exact hlt (Nat.le_refl _)

theorem SignAt.prefix {sign : String} {text rest : List Char} (h : SignAt sign text rest) :
    sign.toList <+: afterBlanks text :=
  ⟨rest, h.spelled.symm⟩

theorem SignAt.rest_eq {sign : String} {text rest : List Char} (h : SignAt sign text rest) :
    rest = (afterBlanks text).drop sign.toList.length := by
  rw [h.spelled, List.drop_left]

/-- Only one sign comes next. -/
theorem SignAt.unique {sign other : String} {text rest rest' : List Char}
    (h : SignAt sign text rest) (h' : SignAt other text rest') : sign = other := by
  have hle := h.longest other h'.mem h'.prefix
  have hge := h'.longest sign h.mem h.prefix
  have hp := List.prefix_of_prefix_length_le h.prefix h'.prefix hge
  exact String.toList_inj.mp (hp.eq_of_length (by omega))

/-- The sign begins no longer sign. -/
def isUnextended (sign : String) : Bool :=
  decide (sign ∈ signs) &&
    signs.all fun other => !sign.toList.isPrefixOf other.toList || other == sign

theorem signAt_of_unextended {sign : String} {text : List Char} (h : isUnextended sign = true)
    (next : sign.toList <+: afterBlanks text) :
    SignAt sign text ((afterBlanks text).drop sign.toList.length) := by
  simp only [isUnextended, Bool.and_eq_true, decide_eq_true_eq, List.all_eq_true,
    Bool.or_eq_true, Bool.not_eq_true', beq_iff_eq] at h
  refine signAt_of_prefix h.1 (fun other ho hp => ?_) next
  rcases h.2 other ho with hno | rfl
  · rw [List.isPrefixOf_iff_prefix.mpr hp] at hno
    cases hno
  · exact .inr rfl

/-- Spellings of signs, each behind all longer signs that it begins; `seen` come before the others. -/
def longestFirst (seen : List String) : List String → Bool
  | [] => true
  | sign :: others =>
    decide (sign ∈ signs) &&
      (signs.all fun other =>
        !sign.toList.isPrefixOf other.toList || other == sign || decide (other ∈ seen)) &&
      longestFirst (sign :: seen) others

/-- The operators of every chain come longest first. -/
theorem longestFirst_operators (l : Level) :
    longestFirst [] (l.operators.map Prod.fst) = true := by
  cases l <;> decide

end Grammar

namespace Reading

/-! ### Signs -/

section Signs

variable {g : Setting σ} (quiet : g.host.Quiet)
include quiet

theorem sees_of_quiet (sign : String) (r : Reader σ) :
    sees g sign r =
      if sign.toList <+: afterBlanks r.rest then
        some (.ok true, r.skipBlanks.skip sign.toList.length)
      else some (.ok false, r) :=
  eat_of_quiet quiet sign.toList r

omit quiet in
/-- The reader behind a sign. -/
theorem rest_behind_sign (sign : String) (r : Reader σ) :
    (r.skipBlanks.skip sign.toList.length).rest =
      (afterBlanks r.rest).drop sign.toList.length := by
  rw [Reader.rest_skip, Reader.rest_skipBlanks, afterBlanks]

theorem sees_of_signAt {sign : String} {r : Reader σ} {rest : List Char}
    (h : SignAt sign r.rest rest) :
    ∃ t, sees g sign r = some (.ok true, t) ∧ t.rest = rest ∧ t.world = r.world := by
  refine ⟨r.skipBlanks.skip sign.toList.length, ?_, ?_, rfl⟩
  · rw [sees_of_quiet quiet, if_pos h.prefix]
  · rw [rest_behind_sign, h.rest_eq]

theorem ends_sees {sign : String} {r : Reader σ} {post : Bool → Reader σ → Prop}
    {fails : Fault → Prop} (h : isUnextended sign = true)
    (yes : ∀ t, SignAt sign r.rest t.rest → t.world = r.world → post true t)
    (no : post false r) : Run.Ends (sees g sign) r post fails := by
  by_cases hp : sign.toList <+: afterBlanks r.rest
  · have hs : sees g sign r = some (.ok true, r.skipBlanks.skip sign.toList.length) := by
      rw [sees_of_quiet quiet, if_pos hp]
    refine Run.ends_of_ok hs (yes _ ?_ rfl)
    rw [rest_behind_sign]
    exact signAt_of_unextended h hp
  · have hs : sees g sign r = some (.ok false, r) := by rw [sees_of_quiet quiet, if_neg hp]
    exact Run.ends_of_ok hs no

theorem sees_of_head {sign : String} {c : Char} {r : Reader σ} (hc : sign.toList.head? = some c)
    (h : (afterBlanks r.rest).head? ≠ some c) : sees g sign r = some (.ok false, r) := by
  rw [sees_of_quiet quiet, if_neg]
  rintro ⟨rest, hr⟩
  obtain ⟨cs, hcs⟩ := List.head?_eq_some_iff.mp hc
  exact h (by rw [← hr, hcs]; rfl)

variable {α : Type}

theorem firstSeen_cons {sign : String} {meaning : α} {table : List (String × α)} {r : Reader σ} :
    firstSeen g ((sign, meaning) :: table) r =
      if sign.toList <+: afterBlanks r.rest then
        some (.ok (some meaning), r.skipBlanks.skip sign.toList.length)
      else firstSeen g table r := by
  rw [firstSeen, Run.bind_apply, sees_of_quiet quiet]
  by_cases h : sign.toList <+: afterBlanks r.rest
  · rw [if_pos h, if_pos h]
    rfl
  · rw [if_neg h, if_neg h]
    rfl

/-- What is taken from a table is the sign that comes next, if that one is in the table. -/
theorem ends_firstSeen {table : List (String × α)} {r : Reader σ}
    {post : Option α → Reader σ → Prop} {fails : Fault → Prop} (seen : List String)
    (ordered : longestFirst seen (table.map Prod.fst) = true)
    (unseen : ∀ other ∈ seen, ¬ other.toList <+: afterBlanks r.rest)
    (found : ∀ sign meaning t, (sign, meaning) ∈ table → SignAt sign r.rest t.rest →
      t.world = r.world → post (some meaning) t)
    (none : (∀ entry ∈ table, ¬ entry.1.toList <+: afterBlanks r.rest) → post none r) :
    Run.Ends (firstSeen g table) r post fails := by
  induction table generalizing seen with
  | nil => exact none (by simp)
  | cons entry table ih =>
    obtain ⟨sign, meaning⟩ := entry
    simp only [List.map_cons, longestFirst, Bool.and_eq_true, decide_eq_true_eq, List.all_eq_true,
      Bool.or_eq_true, Bool.not_eq_true', beq_iff_eq] at ordered
    obtain ⟨⟨mem, longest⟩, ordered⟩ := ordered
    by_cases hp : sign.toList <+: afterBlanks r.rest
    · have hs : firstSeen g ((sign, meaning) :: table) r =
          some (.ok (some meaning), r.skipBlanks.skip sign.toList.length) := by
        rw [firstSeen_cons quiet, if_pos hp]
      refine Run.ends_of_ok hs (found sign meaning _ (by simp) ?_ rfl)
      rw [rest_behind_sign]
      refine signAt_of_prefix mem (fun other ho hs => ?_) hp
      rcases longest other ho with (hno | rfl) | hseen
      · rw [List.isPrefixOf_iff_prefix.mpr hs] at hno
        cases hno
      · exact .inr rfl
      · exact .inl (unseen other hseen)
    · have hr : firstSeen g ((sign, meaning) :: table) r = firstSeen g table r := by
        rw [firstSeen_cons quiet, if_neg hp]
      have htable : Run.Ends (firstSeen g table) r post fails := by
        refine ih (sign :: seen) ordered (fun other ho => ?_)
          (fun sign meaning t hmem => found sign meaning t (by simp [hmem])) fun hnone => ?_
        · rcases List.mem_cons.mp ho with rfl | ho
          · exact hp
          · exact unseen other ho
        · refine none ?_
          intro entry he
          rcases List.mem_cons.mp he with rfl | he
          · exact hp
          · exact hnone entry he
      unfold Run.Ends at htable ⊢
      rwa [hr]

theorem firstSeen_of_head {table : List (String × α)} {r : Reader σ}
    (h : ∀ entry ∈ table, ∃ c, entry.1.toList.head? = some c ∧
      (afterBlanks r.rest).head? ≠ some c) : firstSeen g table r = some (.ok none, r) := by
  induction table with
  | nil => rfl
  | cons entry table ih =>
    obtain ⟨c, hc, hne⟩ := h entry (by simp)
    rw [firstSeen, Run.bind_of_ok (sees_of_head quiet hc hne)]
    exact ih fun entry he => h entry (by simp [he])

/-- A sign of the table that comes next is taken. -/
theorem firstSeen_of_signAt {table : List (String × α)} {sign : String} {meaning : α}
    {r : Reader σ} {rest : List Char} (ordered : longestFirst [] (table.map Prod.fst) = true)
    (nodup : (table.map Prod.fst).Nodup) (mem : (sign, meaning) ∈ table)
    (next : SignAt sign r.rest rest) :
    ∃ t, firstSeen g table r = some (.ok (some meaning), t) ∧ t.rest = rest ∧
      t.world = r.world := by
  have hends : Run.Ends (firstSeen g table) r
      (fun result t => result = some meaning ∧ t.rest = rest ∧ t.world = r.world)
      fun _ => False := by
    refine ends_firstSeen quiet [] ordered (by simp) (fun sign' meaning' t hmem hat hw => ?_)
      fun hnone => absurd next.prefix (hnone _ mem)
    obtain rfl := next.unique hat
    have heq : (sign, meaning') = (sign, meaning) :=
      List.inj_on_of_nodup_map nodup hmem mem rfl
    exact ⟨by rw [(Prod.mk.inj heq).2], by rw [hat.rest_eq, next.rest_eq], hw⟩
  obtain ⟨result, t, ht, rfl, hr, hw⟩ := hends.exists_ok
  exact ⟨t, ht, hr, hw⟩

end Signs

/-! ### Numerals and names -/

section Words

theorem startsName_of_isMantissaChar {c : Char} (h : Numeral.isMantissaChar c = true) :
    startsName c = false := by
  rcases (Bool.or_eq_true _ _).mp h with hd | hp
  · have hall : ∀ n < 58, 48 ≤ n → startsName (Char.ofNat n) = false := by decide
    obtain ⟨h0, h9⟩ := Char.isDigit_iff_toNat.mp hd
    rw [← Char.ofNat_toNat c]
    exact hall c.toNat (Nat.lt_succ_of_le h9) h0
  · rw [beq_iff_eq.mp hp]
    decide

variable {g : Setting σ} {r : Reader σ} {c : Char} (quiet : g.host.Quiet)

/-- Where a letter comes next, there is a name, which is called or not. -/
theorem nameAt_or_callAt {text : List Char} (hc : (afterBlanks text).head? = some c)
    (h : startsName c = true) :
    (∃ name rest, NameAt name text rest) ∨ ∃ name rest, CallAt name text rest := by
  obtain ⟨cs, hcs⟩ := List.head?_eq_some_iff.mp hc
  have hspelled : afterBlanks text =
      (String.ofList ((afterBlanks text).takeWhile continuesName)).toList ++
        (afterBlanks text).dropWhile continuesName := by
    rw [String.toList_ofList, List.takeWhile_append_dropWhile]
  have hname : IsName (String.ofList ((afterBlanks text).takeWhile continuesName))
      ((afterBlanks text).dropWhile continuesName) := by
    refine ⟨⟨c, cs.takeWhile continuesName, ?_, h⟩, fun x hx => ?_, notNext_dropWhile _⟩
    · rw [String.toList_ofList, hcs, List.takeWhile_cons_of_pos (continuesName_of_startsName h)]
    · rw [String.toList_ofList] at hx
      exact all_takeWhile _ x hx
  by_cases hparen : ((afterBlanks text).dropWhile continuesName).head? = some '('
  · obtain ⟨rest, hrest⟩ := List.head?_eq_some_iff.mp hparen
    rw [hrest] at hspelled hname
    exact .inr ⟨_, rest, hname, hspelled⟩
  · exact .inl ⟨_, _, hname, hspelled, hparen⟩

omit quiet in
/-- A run at the start of what is left, and the reader behind it. -/
theorem rest_skip_of_split {run rest : List Char} (h : r.rest = run ++ rest) :
    (r.skip run.length).rest = rest := by
  rw [Reader.rest_skip, h, List.drop_left]

include quiet

theorem numeral_of_quiet (r : Reader σ) :
    numeral g r =
      match Numeral.value? (Numeral.scan r.rest) with
      | some value => some (.ok ⟨.number value, true⟩, r.skip (Numeral.scan r.rest).length)
      | none =>
        failAt (.invalidNumber (String.ofList (Numeral.scan r.rest))) r.cursor.position
          (r.skip (Numeral.scan r.rest).length) := by
  unfold numeral
  rw [Run.bind_of_ok (t := r) (a := r.cursor) rfl, Run.bind_of_ok (advanceBy_of_quiet quiet _ r)]
  unfold Reader.rest
  rcases Numeral.value? (Numeral.scan r.cursor.rest) <;> rfl

/-- A numeral that comes next is read. -/
theorem numeral_of_numeralAt {value : Float} {rest : List Char}
    (next : NumeralAt value r.rest rest) :
    ∃ t, numeral g r.skipBlanks = some (.ok ⟨.number value, true⟩, t) ∧ t.rest = rest ∧
      t.world = r.world := by
  obtain ⟨spelling, hsplit, hn, hv⟩ := next
  have hr : r.skipBlanks.rest = spelling ++ rest := r.rest_skipBlanks.trans hsplit
  refine ⟨r.skipBlanks.skip spelling.length, ?_, rest_skip_of_split hr, rfl⟩
  rw [numeral_of_quiet quiet, hr, scan_append hn, hv]

/-- Where a digit or a point comes next but no numeral, reading fails. -/
theorem numeral_of_not_numeralAt (hc : (afterBlanks r.rest).head? = some c)
    (h : Numeral.isMantissaChar c = true) (none : ∀ value rest, ¬ NumeralAt value r.rest rest) :
    ∃ cause position t, numeral g r.skipBlanks = failAt cause position t := by
  have hr : r.skipBlanks.rest = afterBlanks r.rest := r.rest_skipBlanks
  have hnext : ¬ NotNext Numeral.isMantissaChar r.skipBlanks.rest := by
    intro hn
    rw [hr] at hn
    exact absurd h (by simp [hn c (by simp [hc])])
  obtain ⟨rest, hsplit, hn⟩ := isNumeral_scan hnext
  rw [numeral_of_quiet quiet]
  rcases hv : Numeral.value? (Numeral.scan r.skipBlanks.rest) with _ | value
  · exact ⟨_, _, _, rfl⟩
  · exact absurd ⟨_, hr.symm.trans hsplit, hn, hv⟩ (none value rest)

/-- A name is read up to its end; it is a call if a parenthesis follows. -/
theorem named_of_quiet {name rest : List Char} (inside : Bool)
    (all : ∀ c ∈ name, continuesName c = true) (stop : NotNext continuesName rest)
    (hr : r.rest = name ++ rest) :
    named g inside r =
      if rest.head? = some '(' then
        (callArguments g (inside || isSummation (String.ofList name))
          (r.skip name.length).cursor.position >>= fun args =>
            call g (String.ofList name) args r.cursor.position) ((r.skip name.length).skip 1)
      else some (.ok (reference (String.ofList name) inside), r.skip name.length) := by
  have htake : r.cursor.rest.takeWhile continuesName = name :=
    (congrArg _ hr).trans (takeWhile_run all stop)
  have hhead : (r.skip name.length).cursor.current = rest.head? :=
    congrArg List.head? (rest_skip_of_split hr)
  unfold named
  rw [Run.bind_of_ok (t := r) (a := r.cursor) rfl, htake,
    Run.bind_of_ok (advanceBy_of_quiet quiet _ r),
    Run.bind_of_ok (t := r.skip name.length) (a := (r.skip name.length).cursor) rfl, hhead,
    Run.ite_apply, Run.bind_of_ok (advance_of_quiet quiet _)]
  rfl

/-- A name that comes next and is not called is read as what it stands for. -/
theorem named_of_nameAt {name : String} {rest : List Char} (inside : Bool)
    (next : NameAt name r.rest rest) :
    ∃ t, named g inside r.skipBlanks = some (.ok (reference name inside), t) ∧ t.rest = rest ∧
      t.world = r.world := by
  have hr : r.skipBlanks.rest = name.toList ++ rest := r.rest_skipBlanks.trans next.spelled
  refine ⟨r.skipBlanks.skip name.toList.length, ?_, rest_skip_of_split hr, rfl⟩
  rw [named_of_quiet quiet inside next.isName.continues next.isName.stop hr,
    if_neg next.notCalled, String.ofList_toList]

/-- A name that comes next and is called is read with its arguments. -/
theorem named_of_callAt {name : String} {rest : List Char} (inside : Bool)
    (next : CallAt name r.rest rest) :
    ∃ opening start t, named g inside r.skipBlanks =
      (callArguments g (inside || decide (name ∈ summationNames)) opening >>= fun args =>
        call g name args start) t ∧ t.rest = rest ∧ t.world = r.world := by
  have hr : r.skipBlanks.rest = name.toList ++ '(' :: rest :=
    r.rest_skipBlanks.trans next.spelled
  refine ⟨(r.skipBlanks.skip name.toList.length).cursor.position, r.skipBlanks.cursor.position,
    (r.skipBlanks.skip name.toList.length).skip 1, ?_, ?_, rfl⟩
  · rw [named_of_quiet quiet inside next.isName.continues next.isName.stop hr,
      if_pos (List.head?_cons ..), String.ofList_toList, isSummation_eq]
  · rw [Reader.rest_skip, rest_skip_of_split hr]
    rfl

/-- The blanks in front of a primary are skipped, and its first character tells what it is. -/
theorem primary_of_quiet (inside : Bool) (r : Reader σ) :
    primary g inside r =
      match (afterBlanks r.rest).head? with
      | none => failUnexpected r.skipBlanks
      | some x =>
        if x = '(' then
          (do
            let inner ← g.descend .formula inside
            close g r.skipBlanks.cursor.position
            finish g (.unary .paren inner.node) inner.constant) (r.skipBlanks.skip 1)
        else if Numeral.isMantissaChar x then numeral g r.skipBlanks
        else if startsName x then named g inside r.skipBlanks
        else failUnexpected r.skipBlanks := by
  unfold primary
  rw [Run.bind_of_ok (skipBlanks_of_quiet quiet r),
    Run.bind_of_ok (t := r.skipBlanks) (a := r.skipBlanks.cursor) rfl]
  have hr : r.skipBlanks.cursor.current = (afterBlanks r.rest).head? := by
    rw [afterBlanks, ← Reader.rest_skipBlanks]
    rfl
  rw [hr]
  rcases (afterBlanks r.rest).head? with _ | x
  · rfl
  · simp only [Run.ite_apply, Run.bind_of_ok (advance_of_quiet quiet _)]

theorem primary_of_startsName (inside : Bool) (hc : (afterBlanks r.rest).head? = some c)
    (h : startsName c = true) : primary g inside r = named g inside r.skipBlanks := by
  have hparen : c ≠ '(' := by
    rintro rfl
    exact absurd h (by decide)
  have hm : ¬ Numeral.isMantissaChar c = true := fun hm => by
    rw [startsName_of_isMantissaChar hm] at h
    cases h
  rw [primary_of_quiet quiet, hc]
  show ite _ _ _ = _
  rw [if_neg hparen, if_neg hm, if_pos h]

end Words

end Reading

end Formulae
