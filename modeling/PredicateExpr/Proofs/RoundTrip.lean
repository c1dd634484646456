import PredicateExpr.Condition.Basic
import PredicateExpr.Proofs.Nesting.Completeness
import PredicateExpr.Proofs.Nesting.Soundness
import PredicateExpr.Proofs.Token.Beginnings
import PredicateExpr.Proofs.Token.LeftToRight

/-!
# Reading what was written

The source text of an expression is read token by token, and its tokens derive the expression
(`reads_source`). So a condition whose leaves can be written and that is not too tall is read again
from its source text; and there are no other conditions, because a name is always a word and no
token holds a quote (`parse_source`). Both limits on depth come down to the height: an expression of
some height is written with fewer groups inside each other.
-/

namespace PredicateExpr

open Grammar (Category Derives Spells tooDeep?)
open Text (utf8Size)
open Token.Kind (isSeparating)

/-! ## Tokens at the beginning of a text -/

/-- Tokens with some property come first in a text, with a given rest behind them. -/
def Yields (cs : List Char) (P : List Token → Prop) (rest : List Char) : Prop :=
  ∀ offset, ∃ ts offset', P ts ∧
    ∀ us, leftToRightFrom offset' rest = .ok us → leftToRightFrom offset cs = .ok (ts ++ us)

namespace Yields

variable {cs middle rest text : List Char} {P Q : List Token → Prop} {kind : Token.Kind}

/-- No token comes first in front of the whole text. -/
theorem nil (cs : List Char) : Yields cs (· = []) cs :=
  fun offset => ⟨[], offset, rfl, fun _ h => h⟩

/-- What follows from the property of the tokens is a property of them, too. -/
theorem mono (h : Yields cs P rest) (hPQ : ∀ ts, P ts → Q ts) : Yields cs Q rest := by
  intro offset
  obtain ⟨ts, offset', hP, hread⟩ := h offset
  exact ⟨ts, offset', hPQ ts hP, hread⟩

/-- The tokens of one text and then those of what is behind it. -/
theorem append (h : Yields cs P middle) (h' : Yields middle Q rest) :
    Yields cs (fun tokens => ∃ ts us, tokens = ts ++ us ∧ P ts ∧ Q us) rest := by
  intro offset
  obtain ⟨ts, between, hP, hread⟩ := h offset
  obtain ⟨us, offset', hQ, hread'⟩ := h' between
  refine ⟨ts ++ us, offset', ⟨ts, us, rfl, hP, hQ⟩, fun vs hvs => ?_⟩
  rw [List.append_assoc]
  exact hread _ (hread' vs hvs)

/-- A token at the beginning comes first. -/
theorem token (h : Token.first? cs = some (kind, text, rest)) (hkind : kind ≠ .separator) :
    Yields cs (fun ts => ∃ token : Token, ts = [token] ∧ token.kind = kind ∧
      token.text = String.ofList text) rest := by
  intro offset
  refine ⟨_, offset + (utf8Size cs - utf8Size rest),
    ⟨⟨kind, String.ofList text, offset⟩, rfl, rfl, rfl⟩, fun us hus => ?_⟩
  rw [leftToRightFrom_of_some h, hus]
  simp [Except.map, hkind]

/-- A separator at the beginning is no token. -/
theorem separator (h : Token.first? cs = some (.separator, text, rest)) :
    Yields cs (· = []) rest := by
  intro offset
  refine ⟨[], offset + (utf8Size cs - utf8Size rest), rfl, fun us hus => ?_⟩
  rw [leftToRightFrom_of_some h, hus]
  rfl

end Yields

/-! ## Source texts -/

/-- A text that is read as an expression of some category inside a number of groups, in front of
anything but a separator. -/
def ReadsAs (category : Category) (groups : Nat) (cs : List Char) (t : Tree Atom) : Prop :=
  ∀ rest : List Char, rest.head?.any isSeparating = false →
    Yields (cs ++ rest) (fun ts => Derives category ts t ∧ tooDeep? groups ts = none) rest

namespace ReadsAs

variable {category : Category} {groups : Nat} {cs ds : List Char} {t l r : Tree Atom}

/-- What is read as an expression of a category is read as one of a wider category. -/
theorem mono {category' : Category}
    (hcategory : ∀ ts, Derives category ts t → Derives category' ts t)
    (h : ReadsAs category groups cs t) : ReadsAs category' groups cs t :=
  fun rest hrest => (h rest hrest).mono fun ts hts => ⟨hcategory ts hts.1, hts.2⟩

/-- Nothing at all is read as the empty expression. -/
theorem nil (groups : Nat) : ReadsAs .expression groups [] .empty := by
  intro rest _
  refine (Yields.nil rest).mono ?_
  rintro _ rfl
  exact ⟨.empty, rfl⟩

/-- In brackets any expression is an atom, one group further in. -/
theorem bracketed (hgroups : groups < maxDepth)
    (h : ReadsAs .expression (groups + 1) cs t) :
    ReadsAs .atom groups (Tree.bracketed cs) t := by
  intro rest _
  have hopening := Yields.token (Token.first?_opening (cs ++ ')' :: rest)) (by decide)
  have hclosing := Yields.token (Token.first?_closing rest) (by decide)
  have htext : Tree.bracketed cs ++ rest = '(' :: (cs ++ ')' :: rest) := by
    simp [Tree.bracketed]
  rw [htext]
  refine (hopening.append ((h (')' :: rest) rfl).append hclosing)).mono ?_
  rintro _ ⟨_, _, rfl, ⟨opening, rfl, hopener, _⟩, ts, _, rfl, ⟨hderives, hdeep⟩,
    closing, rfl, hcloser, _⟩
  refine ⟨.group hopener hcloser hderives, ?_⟩
  rw [List.singleton_append, tooDeep?, if_neg (fun hstuck => Nat.not_le.mpr hgroups hstuck.2),
    Grammar.groupsBehind_of_opener hopener, Grammar.tooDeep?_append, hdeep, Option.none_or,
    Grammar.tooDeep?_cons_of_ne (by simp [hcloser])]
  rfl

/-- A bracketed operand with a negation in front of it is read as its negation. -/
theorem not (h : ReadsAs .atom groups (Tree.bracketed cs) t) :
    ReadsAs .negation groups ('!' :: Tree.bracketed cs) (.not t) := by
  intro rest hrest
  have hbang := Yields.token (Token.first?_bang (cs ++ [')'] ++ rest)) (by decide)
  refine (hbang.append (h rest hrest)).mono ?_
  rintro _ ⟨_, ts, rfl, ⟨token, rfl, hkind, htext⟩, hderives, hdeep⟩
  have hop : Spells token .not := ⟨hkind, by rw [htext]; decide⟩
  exact ⟨.not hop (.atom hderives), by rw [List.singleton_append, hop.tooDeep?_cons, hdeep]⟩

/-- Two bracketed operands with the symbol of a connective between them are read as joined by it. -/
theorem join {c : Connective} (hl : ReadsAs .atom groups (Tree.bracketed cs) l)
    (hr : ReadsAs .atom groups (Tree.bracketed ds) r) :
    ReadsAs (.chain c) groups (Tree.bracketed cs ++ c.symbol :: Tree.bracketed ds)
      (.join c l r) := by
  intro rest hrest
  have hsymbol := Yields.token (Token.first?_symbol c (ds ++ [')'] ++ rest)) (by decide)
  have hseparating : isSeparating c.symbol = false := by
    cases c <;> decide
  have hleft := hl (c.symbol :: Tree.bracketed ds ++ rest) hseparating
  rw [List.append_assoc]
  refine (hleft.append (hsymbol.append (hr rest hrest))).mono ?_
  rintro _ ⟨ts, _, rfl, ⟨hderivesl, hdeepl⟩, _, us, rfl, ⟨token, rfl, hkind, htext⟩,
    hderivesr, hdeepr⟩
  have hop : Spells token (.binary c) := ⟨hkind, by rw [htext]; cases c <;> decide⟩
  refine ⟨.join (hderivesl.toOperand c) hop (.operand (hderivesr.toOperand c)), ?_⟩
  rw [Grammar.tooDeep?_append, hdeepl, Option.none_or, hderivesl.groupsAfter_eq,
    List.singleton_append, hop.tooDeep?_cons, hdeepr]

/-- No separator comes first among arguments. -/
theorem head?_argsSource (args : List String) {rest : List Char}
    (hrest : rest.head?.any isSeparating = false) :
    (Atom.argsSource args ++ rest).head?.any isSeparating = false := by
  cases args with
  | nil => exact hrest
  | cons => rfl

/-- The source text of arguments yields a literal for each of them. -/
theorem yields_argsSource {args : List String} (hargs : ∀ arg ∈ args, Atom.ArgWritable arg)
    {rest : List Char} (hrest : rest.head?.any isSeparating = false) :
    Yields (Atom.argsSource args ++ rest)
      (fun ts => (∀ token ∈ ts, token.kind = .literal) ∧ ts.map Token.text = args) rest := by
  induction args with
  | nil =>
    refine (Yields.nil rest).mono ?_
    rintro _ rfl
    exact ⟨by simp, rfl⟩
  | cons arg args ih =>
    rw [List.forall_mem_cons] at hargs
    have hquoted := Yields.token
      (Token.first?_quoted hargs.1 (',' :: (Atom.argsSource args ++ rest))) (by decide)
    have hcomma := Yields.separator (Token.first?_comma (head?_argsSource args hrest))
    have htext : Atom.argsSource (arg :: args) ++ rest =
        '\x27' :: arg.toList ++ '\x27' :: ',' :: (Atom.argsSource args ++ rest) := by
      simp [Atom.argsSource]
    rw [htext]
    refine (hquoted.append (hcomma.append (ih hargs.2))).mono ?_
    rintro _ ⟨_, _, rfl, ⟨token, rfl, hkind, htoken⟩, _, ts, rfl, rfl, hliterals, htexts⟩
    rw [String.ofList_toList] at htoken
    refine ⟨?_, by simp [htoken, htexts]⟩
    simpa [hkind] using hliterals

/-- The source text of an atom that can be written is read as this atom. -/
theorem leaf {atom : Atom} (hatom : atom.Writable) (groups : Nat) :
    ReadsAs .atom groups atom.source (.leaf atom) := by
  intro rest hrest
  have hne : atom.name.toList ≠ [] := by
    intro hnil
    exact hatom.name.1 (String.toList_inj.mp (by rw [hnil]; rfl))
  have hname := Yields.token
    (Token.first?_name hne hatom.name.2 (Atom.argsSource atom.args ++ rest)) (by decide)
  have hcomma := Yields.separator (Token.first?_comma (head?_argsSource atom.args hrest))
  rw [Atom.source, List.append_assoc, List.cons_append]
  refine (hname.append (hcomma.append (yields_argsSource hatom.args hrest))).mono ?_
  rintro _ ⟨_, _, rfl, ⟨word, rfl, hword, htext⟩, _, literals, rfl, rfl, hliterals, htexts⟩
  have hderives := Derives.leaf hword hliterals
  rw [htext, String.ofList_toList, htexts] at hderives
  refine ⟨hderives, ?_⟩
  rw [List.singleton_append, List.nil_append, Grammar.tooDeep?_cons_of_ne (by simp [hword]),
    Grammar.tooDeep?_literals hliterals]

end ReadsAs

/-- The source text of an expression reads as the expression wherever its levels fit into the
groups that are left. -/
theorem reads_source {t : Tree Atom} (ht : t.Writable) {groups : Nat}
    (hfits : groups + t.height ≤ maxDepth) : ReadsAs .expression groups t.source t := by
  induction t generalizing groups with
  | empty => exact ((ReadsAs.nil _).bracketed hfits).mono fun _ => Derives.toExpression
  | leaf atom =>
    exact (ReadsAs.leaf (ht atom List.mem_cons_self) groups).mono fun _ => Derives.toExpression
  | not t ih =>
    have hfits' : groups + 1 + t.height ≤ maxDepth := by
      rw [Tree.height] at hfits
      omega
    have hgroups : groups < maxDepth := by
      omega
    exact ((ih ht hfits').bracketed hgroups).not.mono fun _ => Derives.toExpression
  | join c l r ihl ihr =>
    have hfitsl : groups + 1 + l.height ≤ maxDepth := by
      rw [Tree.height] at hfits
      omega
    have hfitsr : groups + 1 + r.height ≤ maxDepth := by
      rw [Tree.height] at hfits
      omega
    have hgroups : groups < maxDepth := by
      omega
    have hwritable := List.forall_mem_append.mp ht
    exact (ReadsAs.join ((ihl hwritable.1 hfitsl).bracketed hgroups)
      ((ihr hwritable.2 hfitsr).bracketed hgroups)).mono fun _ => Derives.toExpression

/-! ## Expressions that are read -/

/-- Tokens that can be written derive expressions that can be written. -/
theorem Grammar.Derives.writable {category : Category} {ts : List Token} {t : Tree Atom}
    (h : Derives category ts t) (hts : ∀ token ∈ ts, token.Writable) : t.Writable := by
  induction h with
  | empty => intro atom hatom; cases hatom
  | chain _ ih | operand _ ih | atom _ ih => exact ih hts
  | join _ _ _ ihl ihr =>
    rw [List.forall_mem_append, List.forall_mem_cons] at hts
    exact List.forall_mem_append.mpr ⟨ihl hts.1, ihr hts.2.2⟩
  | not _ _ ih => exact ih (List.forall_mem_cons.mp hts).2
  | @leaf word literals hword hliterals =>
    rw [List.forall_mem_cons] at hts
    intro atom hatom
    rw [List.mem_singleton.mp hatom]
    refine ⟨hts.1.name hword, fun arg harg => ?_⟩
    obtain ⟨literal, hmem, rfl⟩ := List.mem_map.mp harg
    exact (hts.2 literal hmem).arg (hliterals literal hmem)
  | group _ _ _ ih =>
    rw [List.forall_mem_append, List.forall_mem_cons] at hts
    exact ih hts.1.2

variable {σ : Type}

/-- The expressions that a text can stand for are those whose leaves can be written and that are
not too tall, and each of them is read again from its source text. No leaf of a condition that was
read has a callback, and none was put to a resolver. -/
theorem parse_source :
    (∀ t : Tree Atom, t.Writable → t.height ≤ maxDepth →
      (Condition.parse (String.ofList t.source) : Except CompileError (Condition σ)) =
        .ok { root := t.map Leaf.unresolved, bound := false }) ∧
    (∀ (text : String) (condition : Condition σ), Condition.parse text = .ok condition →
      ∃ t : Tree Atom, condition.root = t.map Leaf.unresolved ∧ condition.bound = false ∧
        t.Writable ∧ t.height ≤ maxDepth) := by
  constructor
  · intro t ht hheight
    have hreads := reads_source ht (by rwa [Nat.zero_add])
    obtain ⟨ts, offset', ⟨hderives, hdeep⟩, hread⟩ := hreads [] rfl 0
    have htokens := hread [] (leftToRightFrom_nil offset')
    rw [List.append_nil, List.append_nil] at htokens
    have htokenize : tokenize (String.ofList t.source) = .ok ts := by
      rw [tokenize_eq_ok_iff, leftToRight, String.toList_ofList, htokens]
    have hparse : parse ts = .ok t := by
      rcases hderives.parse_cases with ⟨_, _, hparse⟩ | ⟨_, hstuck, _⟩ | ⟨htall, _⟩
      · exact hparse
      · rw [hdeep] at hstuck
        cases hstuck
      · exact absurd hheight (Nat.not_le.mpr htall)
    rw [Condition.parse, htokenize, ok_bind, hparse]
    rfl
  · intro text condition h
    obtain ⟨tokens, htokenize, hrest⟩ := bind_eq_ok_iff.mp h
    obtain ⟨t, hparse, hcondition⟩ := bind_eq_ok_iff.mp hrest
    cases hcondition
    obtain ⟨hderives, _, hheight⟩ := derives_of_parse hparse
    have htokens := writable_of_leftToRightFrom (tokenize_eq_ok_iff.mp htokenize)
    refine ⟨t, rfl, rfl, hderives.writable fun token hmem => ?_, hheight⟩
    exact htokens token (List.mem_filter.mp hmem).1

/-- A name spelled like an operator, with an empty argument and one that looks like a group, next to
an empty group. -/
theorem parse_source_of_operator_name :
    (Condition.parse "!((and,\x27\x27,\x27(x, y) \x27,)&(()))" :
        Except CompileError (Condition Unit)) =
        .ok ⟨.not (.join .and (.leaf ⟨⟨"and", ["", "(x, y) "]⟩, none⟩) .empty), false⟩ ∧
      ∃ t : Tree Atom,
        (.not (.join .and (.leaf ⟨⟨"and", ["", "(x, y) "]⟩, none⟩) .empty) : Tree (Leaf Unit)) =
          t.map Leaf.unresolved ∧ t.Writable ∧ t.height ≤ maxDepth := by
  have hwritable : (Tree.not (.join .and (.leaf ⟨"and", ["", "(x, y) "]⟩) .empty)).Writable := by
    decide
  have hparse := (@parse_source Unit).1 _ hwritable (by decide)
  obtain ⟨t, hroot, -, ht⟩ := (@parse_source Unit).2 _ _ hparse
  exact ⟨hparse, t, hroot, ht⟩

end PredicateExpr
