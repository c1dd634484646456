import PredicateExpr.Proofs.Token.Extents
import PredicateExpr.Tree.Render
import PredicateExpr.Tree.Source

/-!
# Renderings determine expressions

The rendering of an expression has no quotes, and a leaf may be named like an operator. It tells all
the same which expression it is of, if names are words and arguments are not empty and hold no comma
and no closing bracket (`Tree.render_eq_render_iff`). The first character of a rendering tells an
operation from a leaf and from the empty expression, and a name is followed by a bracket where an
operator is followed by a blank. So a rendering tells where it ends, whatever is behind it
(`Tree.eq_of_render_append`), and an operation can be taken apart from left to right.
-/

namespace PredicateExpr

open Token.Kind (isNameChar)

/-- The text behind a stretch decides where the stretch ends. -/
theorem Token.Run.eq_of_append {accepts : Char → Bool} {a b x y : List Char}
    (ha : Token.Run accepts a x) (hb : Token.Run accepts b y) (h : a ++ x = b ++ y) :
    a = b ∧ x = y := by
  have hfirst := run?_eq_some_iff.mpr ⟨rfl, ha⟩
  have hsecond := run?_eq_some_iff.mpr ⟨rfl, hb⟩
  rw [h, hsecond] at hfirst
  cases hfirst
  exact ⟨rfl, rfl⟩

/-! ## Atoms -/

/-- A character of an argument that can be told from what is behind the argument. -/
def Atom.isArgChar (c : Char) : Bool :=
  c != ',' && c != ')'

/-- An argument that is not empty and has such characters only. -/
def Atom.ArgLegible (arg : String) : Prop :=
  arg ≠ "" ∧ ',' ∉ arg.toList ∧ ')' ∉ arg.toList

instance (arg : String) : Decidable (Atom.ArgLegible arg) :=
  inferInstanceAs (Decidable (_ ∧ _))

/-- An atom that can be read off its rendering. -/
structure Atom.Legible (atom : Atom) : Prop where
  /-- Its name is a word. -/
  name : NameWritable atom.name
  /-- Its arguments are not empty and hold neither commas nor closing brackets. -/
  args : ∀ arg ∈ atom.args, ArgLegible arg

instance (atom : Atom) : Decidable atom.Legible :=
  decidable_of_iff (Atom.NameWritable atom.name ∧ ∀ arg ∈ atom.args, Atom.ArgLegible arg)
    ⟨fun h => ⟨h.1, h.2⟩, fun h => ⟨h.name, h.args⟩⟩

namespace Atom

variable {atom : Atom}

/-- The name of a legible atom in front of something else. -/
theorem Legible.run_name (h : atom.Legible) {rest : List Char}
    (hrest : rest.head?.any isNameChar = false) : Token.Run isNameChar atom.name.toList rest :=
  ⟨by simpa using h.name.1, h.name.2, hrest⟩

/-- A legible argument in front of something else. -/
theorem ArgLegible.run_arg {arg : String} (h : ArgLegible arg) {rest : List Char}
    (hrest : rest.head?.any isArgChar = false) : Token.Run isArgChar arg.toList rest := by
  refine ⟨by simpa using h.1, ?_, hrest⟩
  intro c hc
  have hcomma : c ≠ ',' := fun heq => h.2.1 (heq ▸ hc)
  have hclosing : c ≠ ')' := fun heq => h.2.2 (heq ▸ hc)
  simp [isArgChar, hcomma, hclosing]

/-- What is behind the first of some arguments: the others, each behind a comma and a blank, and the
closing bracket. -/
def argsBehind (others : List String) (rest : List Char) : List Char :=
  match others with
  | [] => ')' :: rest
  | _ :: _ => ',' :: ' ' :: ((", ".intercalate others).toList ++ ')' :: rest)

/-- The first of some arguments, and what is behind it. -/
theorem args_append_cons (arg : String) (others : List String) (rest : List Char) :
    (", ".intercalate (arg :: others)).toList ++ ')' :: rest =
      arg.toList ++ argsBehind others rest := by
  cases others with
  | nil => rw [String.intercalate_singleton, argsBehind]
  | cons other others =>
    rw [String.intercalate_cons_cons, String.toList_append, String.toList_append, argsBehind]
    simp

theorem head?_argsBehind (others : List String) (rest : List Char) :
    (argsBehind others rest).head?.any isArgChar = false := by
  cases others <;> rfl

/-- Some arguments are not none. -/
theorem args_append_ne {arg : String} (h : ArgLegible arg) (others : List String)
    (x y : List Char) :
    (", ".intercalate (arg :: others)).toList ++ ')' :: x ≠ ')' :: y := by
  rw [args_append_cons]
  intro heq
  have hrun := h.run_arg (head?_argsBehind others x)
  cases hchars : arg.toList with
  | nil => exact hrun.ne hchars
  | cons c cs =>
    rw [hchars, List.cons_append, List.cons.injEq] at heq
    exact h.2.2 (by simp [hchars, heq.1])

/-- The arguments of an atom can be read off their text, up to the bracket behind them. -/
theorem eq_of_args_append {args args' : List String} (h : ∀ arg ∈ args, ArgLegible arg)
    (h' : ∀ arg ∈ args', ArgLegible arg) {x y : List Char}
    (heq : (", ".intercalate args).toList ++ ')' :: x =
      (", ".intercalate args').toList ++ ')' :: y) : args = args' ∧ x = y := by
  induction args generalizing args' with
  | nil =>
    cases args' with
    | nil => exact ⟨rfl, (List.cons.inj heq).2⟩
    | cons arg' others' =>
      rw [List.forall_mem_cons] at h'
      exact absurd heq.symm (args_append_ne h'.1 others' y x)
  | cons arg others ih =>
    cases args' with
    | nil =>
      rw [List.forall_mem_cons] at h
      exact absurd heq (args_append_ne h.1 others x y)
    | cons arg' others' =>
      rw [List.forall_mem_cons] at h h'
      rw [args_append_cons, args_append_cons] at heq
      obtain ⟨harg, hbehind⟩ := (h.1.run_arg (head?_argsBehind others x)).eq_of_append
        (h'.1.run_arg (head?_argsBehind others' y)) heq
      rw [String.toList_inj] at harg
      -- the character behind an argument tells whether there is another one
      cases others with
      | nil =>
        cases others' with
        | nil => exact ⟨by rw [harg], (List.cons.inj hbehind).2⟩
        | cons => simp [argsBehind] at hbehind
      | cons =>
        cases others' with
        | nil => simp [argsBehind] at hbehind
        | cons =>
          simp only [argsBehind, List.cons.injEq, true_and] at hbehind
          obtain ⟨hothers, hrest⟩ := ih h.2 h'.2 hbehind
          exact ⟨by rw [harg, hothers], hrest⟩

end Atom

namespace Tree

/-- An expression whose leaves can be read off its rendering. -/
def Legible (t : Tree Atom) : Prop :=
  ∀ atom ∈ t.leaves, atom.Legible

instance (t : Tree Atom) : Decidable t.Legible :=
  List.decidableBAll _ _

/-! ## Renderings with something behind them -/

theorem render_empty_append (x : List Char) :
    (empty : Tree Atom).render.toList ++ x = '\x7b' :: '\x7d' :: x :=
  rfl

/-- A leaf is rendered as its name and its arguments in brackets. -/
theorem render_leaf_append (atom : Atom) (x : List Char) :
    (leaf atom).render.toList ++ x =
      atom.name.toList ++ '(' :: ((", ".intercalate atom.args).toList ++ ')' :: x) := by
  simp [render, renderWith, Atom.render]

/-- A negation is rendered in brackets, with its name in front of the operand. -/
theorem render_not_append (t : Tree Atom) (x : List Char) :
    (not t).render.toList ++ x =
      '[' :: ' ' :: 'N' :: 'O' :: 'T' :: ' ' :: (t.render.toList ++ ' ' :: ']' :: x) := by
  simp [render, renderWith]

/-- A joined pair is rendered in brackets, with the name of the connective between the operands. -/
theorem render_join_append (c : Connective) (l r : Tree Atom) (x : List Char) :
    (join c l r).render.toList ++ x =
      '[' :: ' ' :: (l.render.toList ++ ' ' ::
        (c.name.toList ++ ' ' :: (r.render.toList ++ ' ' :: ']' :: x))) := by
  simp [render, renderWith]

/-- A leaf does not begin like another expression. -/
theorem render_leaf_append_ne {atom : Atom} (h : atom.Legible) {c : Char}
    (hc : isNameChar c = false) (x y : List Char) :
    (leaf atom).render.toList ++ x ≠ c :: y := by
  rw [render_leaf_append]
  intro heq
  cases hchars : atom.name.toList with
  | nil => exact h.name.1 (by simpa using hchars)
  | cons d ds =>
    rw [hchars, List.cons_append, List.cons.injEq] at heq
    have hd := h.name.2 d (by simp [hchars])
    rw [heq.1, hc] at hd
    cases hd

/-- A left operand does not begin like a negation, even if its name is that of one. -/
theorem render_append_ne_not {t : Tree Atom} (h : t.Legible) (x y : List Char) :
    t.render.toList ++ x ≠ 'N' :: 'O' :: 'T' :: ' ' :: y := by
  cases t with
  | empty => simp [render_empty_append]
  | leaf atom =>
    rw [render_leaf_append]
    intro heq
    have hname : Token.Run isNameChar atom.name.toList
        ('(' :: ((", ".intercalate atom.args).toList ++ ')' :: x)) :=
      (h atom List.mem_cons_self).run_name rfl
    have hnot : Token.Run isNameChar ['N', 'O', 'T'] (' ' :: y) :=
      ⟨by simp, List.all_eq_true.mp rfl, rfl⟩
    have hbehind := (hname.eq_of_append hnot heq).2
    simp at hbehind
  | not t => simp [render_not_append]
  | join c l r => simp [render_join_append]

/-- The blank behind the name of a connective tells where the name ends. -/
theorem eq_of_name_append {c d : Connective} {x y : List Char}
    (h : c.name.toList ++ ' ' :: x = d.name.toList ++ ' ' :: y) : c = d ∧ x = y := by
  cases c <;> cases d <;> simp_all [Connective.name]

/-- A rendering tells which expression it is of, and where it ends. -/
theorem eq_of_render_append {s t : Tree Atom} (hs : s.Legible) (ht : t.Legible) {x y : List Char}
    (h : s.render.toList ++ x = t.render.toList ++ y) : s = t ∧ x = y := by
  -- the induction is on the expression with anything behind it, so that where the left operand of a
  -- connective ends the right one can be read on
  induction s generalizing t x y with
  | empty =>
    cases t with
    | empty =>
      rw [render_empty_append, render_empty_append] at h
      exact ⟨rfl, (List.cons.inj (List.cons.inj h).2).2⟩
    | leaf atom => exact absurd h.symm (render_leaf_append_ne (ht atom List.mem_cons_self) rfl _ _)
    | not t => simp [render_empty_append, render_not_append] at h
    | join d l' r' => simp [render_empty_append, render_join_append] at h
  | leaf atom =>
    have hatom := hs atom List.mem_cons_self
    cases t with
    | empty => exact absurd h (render_leaf_append_ne hatom rfl _ _)
    | leaf atom' =>
      have hatom' := ht atom' List.mem_cons_self
      rw [render_leaf_append, render_leaf_append] at h
      obtain ⟨hname, hbehind⟩ := (hatom.run_name rfl).eq_of_append (hatom'.run_name rfl) h
      rw [String.toList_inj] at hname
      obtain ⟨hargs, hrest⟩ := Atom.eq_of_args_append hatom.args hatom'.args
        (List.cons.inj hbehind).2
      refine ⟨congrArg leaf ?_, hrest⟩
      rw [Atom.mk.injEq]
      exact ⟨hname, hargs⟩
    | not t => exact absurd (h.trans (render_not_append _ _)) (render_leaf_append_ne hatom rfl _ _)
    | join d l' r' =>
      exact absurd (h.trans (render_join_append _ _ _ _)) (render_leaf_append_ne hatom rfl _ _)
  | not s ih =>
    rw [render_not_append] at h
    cases t with
    | empty => simp [render_empty_append] at h
    | leaf atom => exact absurd h.symm (render_leaf_append_ne (ht atom List.mem_cons_self) rfl _ _)
    | not t =>
      simp only [render_not_append, List.cons.injEq, true_and] at h
      have hoperand : t.Legible := ht
      obtain ⟨rfl, hrest⟩ := ih hs hoperand h
      exact ⟨rfl, (List.cons.inj (List.cons.inj hrest).2).2⟩
    | join d l' r' =>
      simp only [render_join_append, List.cons.injEq, true_and] at h
      have hl' : l'.Legible := (List.forall_mem_append.mp ht).1
      exact absurd h.symm (render_append_ne_not hl' _ _)
  | join c l r ihl ihr =>
    have hoperands := List.forall_mem_append.mp hs
    rw [render_join_append] at h
    cases t with
    | empty => simp [render_empty_append] at h
    | leaf atom => exact absurd h.symm (render_leaf_append_ne (ht atom List.mem_cons_self) rfl _ _)
    | not t =>
      simp only [render_not_append, List.cons.injEq, true_and] at h
      exact absurd h (render_append_ne_not hoperands.1 _ _)
    | join d l' r' =>
      have hoperands' := List.forall_mem_append.mp ht
      simp only [render_join_append, List.cons.injEq, true_and] at h
      obtain ⟨rfl, hname⟩ := ihl hoperands.1 hoperands'.1 h
      obtain ⟨rfl, hright⟩ := eq_of_name_append (List.cons.inj hname).2
      obtain ⟨rfl, hrest⟩ := ihr hoperands.2 hoperands'.2 hright
      exact ⟨rfl, (List.cons.inj (List.cons.inj hrest).2).2⟩

/-- Legible expressions have the same rendering only if they are the same. -/
theorem render_eq_render_iff {s t : Tree Atom} (hs : s.Legible) (ht : t.Legible) :
    s.render = t.render ↔ s = t := by
  constructor
  · intro h
    have happend : s.render.toList ++ [] = t.render.toList ++ [] := by rw [h]
    exact (eq_of_render_append hs ht happend).1
  · intro h
    rw [h]

/-- A leaf named like a negation, in front of a negation and in front of another such leaf. -/
theorem render_eq_render_iff_of_operator_names :
    (join .and (.leaf ⟨"NOT", ["a", "b("]⟩) (.not (.leaf ⟨"AND", ["x OR y"]⟩))).render =
      "[ NOT(a, b() AND [ NOT AND(x OR y) ] ]" ∧
    (join .and (.leaf ⟨"NOT", ["a", "b("]⟩) (.leaf ⟨"NOT", ["AND(x OR y"]⟩)).render =
      "[ NOT(a, b() AND NOT(AND(x OR y) ]" ∧
    (join .and (.leaf ⟨"NOT", ["a", "b("]⟩) (.not (.leaf ⟨"AND", ["x OR y"]⟩))).render ≠
      (join .and (.leaf ⟨"NOT", ["a", "b("]⟩) (.leaf ⟨"NOT", ["AND(x OR y"]⟩)).render := by
  have hfirst : (join .and (.leaf ⟨"NOT", ["a", "b("]⟩)
      (.not (.leaf ⟨"AND", ["x OR y"]⟩))).Legible := by decide
  have hsecond : (join .and (.leaf ⟨"NOT", ["a", "b("]⟩)
      (.leaf ⟨"NOT", ["AND(x OR y"]⟩)).Legible := by decide
  refine ⟨by decide, by decide, ?_⟩
  rw [Ne, render_eq_render_iff hfirst hsecond]
  exact nofun

end Tree

end PredicateExpr
