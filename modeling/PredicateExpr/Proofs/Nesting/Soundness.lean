import PredicateExpr.Proofs.Grammar.Brackets
import PredicateExpr.Proofs.Nesting.Reading
import PredicateExpr.Proofs.Phrase.Chains

/-!
# What is read is derived

The open levels account for every token read so far. `Nesting.Covers` says which tokens stand
behind each level: the entries of its phrase cover stretches of them, one after the other, and
between two levels stands the bracket that opened the inner one. Reading a token keeps this
(`Nesting.Covers.advance`), so that it holds wherever reading stops, and a level that is folded
yields a derivation of its tokens (`Level.Covers.derives`).
-/

namespace PredicateExpr

open Grammar (Category Derives Spells significant tooDeep?)

/-! ## The tokens of a phrase -/

/-- The tokens that an entry of a phrase stands for, where its operands are of some category. -/
inductive Piece.Covers (category : Category) : Piece → List Token → Prop
  | operator {token : Token} {op : Operator} :
      Spells token op → Covers category (.operator op token.offset) [token]
  | operand {o : Operand} {first : Token} {others : List Token} :
      Derives category (first :: others) o.tree → o.offset = first.offset → o.Exact →
      o.height ≤ maxDepth → Covers category (.operand o) (first :: others)

namespace Phrase

/-- The tokens that a phrase stands for, entry by entry. -/
inductive Covers (category : Category) : Phrase → List Token → Prop
  | nil : Covers category [] []
  | cons {piece : Piece} {p : Phrase} {ts us : List Token} :
      piece.Covers category ts → Covers category p us → Covers category (piece :: p) (ts ++ us)

variable {category : Category}

/-- Two phrases together stand for the tokens of both. -/
theorem Covers.append {p q : Phrase} {ts us : List Token} (hp : Covers category p ts)
    (hq : Covers category q us) : Covers category (p ++ q) (ts ++ us) := by
  induction hp with
  | nil => exact hq
  | cons hpiece _ ih =>
    rw [List.append_assoc]
    exact .cons hpiece ih

/-- An entry at the end of a phrase stands for tokens at the end. -/
theorem Covers.concat {p : Phrase} {piece : Piece} {ts us : List Token}
    (hp : Covers category p ts) (hpiece : piece.Covers category us) :
    Covers category (p ++ [piece]) (ts ++ us) := by
  have hlast : Covers category [piece] us := by
    rw [← List.append_nil us]
    exact .cons hpiece .nil
  exact hp.append hlast

/-- A phrase in two parts cuts its tokens in two. -/
theorem Covers.split {p q : Phrase} {ts : List Token} (h : Covers category (p ++ q) ts) :
    ∃ us vs, ts = us ++ vs ∧ Covers category p us ∧ Covers category q vs := by
  induction p generalizing ts with
  | nil => exact ⟨[], ts, rfl, .nil, h⟩
  | cons piece p ih =>
    cases h with
    | @cons _ _ first rest hpiece htail =>
      obtain ⟨us, vs, rfl, hp, hq⟩ := ih htail
      exact ⟨first ++ us, vs, by rw [List.append_assoc], .cons hpiece hp, hq⟩

/-- Operands that stand for tokens remember the true height of their tree. -/
theorem Covers.exact {p : Phrase} {ts : List Token} (h : Covers category p ts) : Exact p := by
  induction h with
  | nil => exact exact_nil
  | cons hpiece _ ih =>
    cases hpiece with
    | operator _ => exact exact_operator_cons.mpr ih
    | operand _ _ hexact _ => exact exact_operand_cons.mpr ⟨hexact, ih⟩

/-- Operands that stand for tokens are within the limit. -/
theorem Covers.low {p : Phrase} {ts : List Token} (h : Covers category p ts) : Low p := by
  induction h with
  | nil => exact low_nil
  | cons hpiece _ ih =>
    cases hpiece with
    | operator _ => exact low_operator_cons.mpr ih
    | operand _ _ _ hle => exact low_operand_cons.mpr ⟨hle, ih⟩

/-- A single operand stands for an atom. -/
theorem Covers.derives_of_single {p : Phrase} {ts : List Token} {t : Tree Atom}
    (h : Covers .atom p ts) (hp : Single p t) : Derives .atom ts t := by
  obtain ⟨o⟩ := hp
  cases h with
  | cons hpiece hnil =>
    cases hnil
    cases hpiece with
    | operand hderives _ _ _ => rwa [List.append_nil]

/-- An operand with negations in front stands for a negation. -/
theorem Covers.derives_of_negated {p : Phrase} {ts : List Token} {t : Tree Atom}
    (h : Covers .atom p ts) (hp : Negated p t) : Derives .negation ts t := by
  induction hp generalizing ts with
  | operand o => exact .atom (h.derives_of_single (.operand o))
  | not offset _ ih =>
    cases h with
    | cons hpiece htail =>
      cases hpiece with
      | operator hop => exact .not hop (ih htail)

/-- A chain stands for a chain, if its parts stand for operands of it. -/
theorem Covers.derives_of_chain {c : Connective} {P : Phrase → Tree Atom → Prop} {p : Phrase}
    {ts : List Token} {t : Tree Atom}
    (hP : ∀ {p ts t}, Covers .atom p ts → P p t → Derives (Grammar.operandOf c) ts t)
    (h : Covers .atom p ts) (hp : Chain c P p t) : Derives (.chain c) ts t := by
  induction hp generalizing ts with
  | one hp => exact .operand (hP h hp)
  | join offset hl _ ih =>
    obtain ⟨us, vs, rfl, hcoversl, hrest⟩ := h.split
    cases hrest with
    | cons hpiece hcoversr =>
      cases hpiece with
      | operator hop => exact .join (hP hcoversl hl) hop (ih hcoversr)

/-- A phrase of the grammar stands for the tokens of an expression. -/
theorem Covers.derives {p : Phrase} {ts : List Token} {t : Tree Atom} (h : Covers .atom p ts)
    (hp : Forms .expression p t) : Derives .expression ts t := by
  obtain ⟨rfl, rfl⟩ | hp := forms_expression_iff.mp hp
  · cases h
    exact .empty
  · have hand : ∀ {p ts t}, Covers .atom p ts → Chain .and Negated p t →
        Derives (.chain .and) ts t :=
      fun h hp => h.derives_of_chain Covers.derives_of_negated hp
    have hxor : ∀ {p ts t}, Covers .atom p ts → Chain .xor (Chain .and Negated) p t →
        Derives (.chain .xor) ts t :=
      fun h hp => h.derives_of_chain hand hp
    exact .chain (h.derives_of_chain hxor hp)

end Phrase

/-! ## The tokens of the open levels -/

/-- The tokens that were read on a level. A name at its end comes with its literals. -/
inductive Level.Covers : Level → List Token → Prop
  | closed {latest : List Piece} {ts : List Token} :
      Phrase.Covers .atom latest.reverse ts → Covers ⟨latest, none⟩ ts
  | word {latest : List Piece} {ts literals : List Token} {token : Token} :
      Phrase.Covers .atom latest.reverse ts → token.kind = .word →
      (∀ literal ∈ literals, literal.kind = .literal) →
      Covers ⟨latest, some ⟨⟨token.text, literals.map Token.text⟩, token.offset⟩⟩
        (ts ++ token :: literals)

namespace Level

/-- The name at the end of a level is an entry like the others. -/
theorem Covers.pieces {level : Level} {ts : List Token} (h : level.Covers ts) :
    Phrase.Covers .atom level.pieces.reverse ts := by
  cases h with
  | closed h => exact h
  | word h hword hliterals =>
    rw [Level.pieces, List.reverse_cons]
    have hone : 1 ≤ maxDepth := by decide
    exact h.concat (.operand (.leaf hword hliterals) rfl rfl hone)

/-- A level with nothing read stands for no token. -/
theorem covers_start : Level.start.Covers [] :=
  .closed .nil

/-- An entry stands for the tokens behind those read before it. -/
theorem Covers.push {level : Level} {piece : Piece} {ts us : List Token} (h : level.Covers ts)
    (hpiece : piece.Covers .atom us) : (level.push piece).Covers (ts ++ us) := by
  refine .closed ?_
  rw [List.reverse_cons]
  exact h.pieces.concat hpiece

/-- A name without literals stands for its token. -/
theorem Covers.openWord {level : Level} {token : Token} {ts : List Token} (h : level.Covers ts)
    (hword : token.kind = .word) :
    (level.openWord token.text token.offset).Covers (ts ++ [token]) :=
  @Covers.word level.pieces ts [] token h.pieces hword (fun _ hmem => nomatch hmem)

/-- A literal behind an open name stands for one more argument. -/
theorem Covers.literal {latest : List Piece} {word : OpenWord} {token : Token} {ts : List Token}
    (h : Covers ⟨latest, some word⟩ ts) (hliteral : token.kind = .literal) :
    Covers ⟨latest, some ⟨⟨word.atom.name, word.atom.args ++ [token.text]⟩, word.offset⟩⟩
      (ts ++ [token]) := by
  cases h with
  | @word _ ts literals name hlatest hword hliterals =>
    have hargs : literals.map Token.text ++ [token.text] =
        (literals ++ [token]).map Token.text := by simp
    rw [List.append_assoc, List.cons_append, hargs]
    refine .word hlatest hword ?_
    intro literal hmem
    rcases List.mem_append.mp hmem with hmem | hmem
    · exact hliterals literal hmem
    · rwa [List.mem_singleton.mp hmem]

/-- A level that is folded yields a derivation of its tokens. -/
theorem Covers.derives {level : Level} {ts : List Token} {m : Measured} (h : level.Covers ts)
    (hfold : level.fold = .ok m) :
    Derives .expression ts m.tree ∧ m.height = m.tree.height ∧ m.tree.height ≤ maxDepth := by
  obtain ⟨hforms, hheight, hle⟩ := Phrase.forms_of_fold h.pieces.exact h.pieces.low hfold
  exact ⟨h.pieces.derives hforms, hheight, hle⟩

end Level

namespace Nesting

/-- The tokens that were read on all open levels, with the brackets that opened them. -/
inductive Covers : Nesting → List Token → Prop
  | level {level : Level} {ts : List Token} : level.Covers ts → Covers ⟨level, []⟩ ts
  | group {level around : Level} {outer : List (Level × Nat)} {opening : Token}
      {ts us : List Token} :
      Covers ⟨around, outer⟩ ts → opening.kind = .opener → level.Covers us →
      Covers ⟨level, (around, opening.offset) :: outer⟩ (ts ++ opening :: us)

theorem covers_start : Nesting.start.Covers [] :=
  .level Level.covers_start

/-- What the innermost level reads, all levels read. -/
theorem Covers.extend {level level' : Level} {outer : List (Level × Nat)} {ts us : List Token}
    (h : Covers ⟨level, outer⟩ ts)
    (hlevel : ∀ {ts}, level.Covers ts → level'.Covers (ts ++ us)) :
    Covers ⟨level', outer⟩ (ts ++ us) := by
  cases h with
  | level h => exact .level (hlevel h)
  | group haround hopening h =>
    rw [List.append_assoc, List.cons_append]
    exact .group haround hopening (hlevel h)

/-- Reading a token keeps account of it, unless it is a separator. -/
theorem Covers.advance {groups : Nat} {nesting nesting' : Nesting} {token : Token}
    {ts : List Token} (h : nesting.Covers ts) (hadvance : Advance groups nesting token nesting') :
    nesting'.Covers (ts ++ significant [token]) := by
  have hkeep : token.kind ≠ .separator → significant [token] = [token] :=
    fun hkind => Grammar.significant_cons hkind []
  cases hadvance with
  | opener hkind _ =>
    rw [hkeep (by simp [hkind])]
    exact .group h hkind Level.covers_start
  | closer hkind hfold =>
    cases h with
    | @group _ _ _ opening ts us haround hopening hlevel =>
      obtain ⟨hderives, hheight, hle⟩ := hlevel.derives hfold
      rw [hkeep (by simp [hkind]), List.append_assoc]
      refine haround.extend fun hcovers => ?_
      exact hcovers.push (.operand (.group hopening hkind hderives) rfl hheight (hheight ▸ hle))
  | separator hkind =>
    have hdrop : significant [token] = [] := Grammar.significant_cons_of_separator hkind []
    rwa [hdrop, List.append_nil]
  | operator hop =>
    rw [hkeep (by simp [hop.1])]
    exact h.extend fun hcovers => hcovers.push (.operator hop)
  | literal hkind =>
    rw [hkeep (by simp [hkind])]
    exact h.extend fun hcovers => hcovers.literal hkind
  | word hkind =>
    rw [hkeep (by simp [hkind])]
    exact h.extend fun hcovers => hcovers.openWord hkind

/-- Reading keeps account of every token that it takes. -/
theorem Covers.read {groups : Nat} {nesting nesting' : Nesting} {ts tokens rest : List Token}
    (h : nesting.Covers ts) (hread : nesting.read groups tokens = .ok (nesting', rest)) :
    ∃ taken, tokens = taken ++ rest ∧ nesting'.Covers (ts ++ significant taken) := by
  induction tokens generalizing nesting ts with
  | nil =>
    cases hread
    exact ⟨[], rfl, by simpa [significant] using h⟩
  | cons token tokens ih =>
    obtain ⟨between, hnext, hbetween⟩ | ⟨_, rfl, rfl⟩ := next_of_read_cons hread
    · obtain ⟨taken, rfl, hcovers⟩ := ih (h.advance (advance_of_next hnext)) hbetween
      refine ⟨token :: taken, rfl, ?_⟩
      rw [List.append_assoc] at hcovers
      rwa [show significant (token :: taken) = significant [token] ++ significant taken from
        List.filter_append [token] taken]
    · exact ⟨[], rfl, by simpa [significant] using h⟩

/-! ## Groups -/

/-- The open levels count the open groups, and no bracket is read beyond the limit. -/
theorem Advance.groups {groups : Nat} {nesting nesting' : Nesting} {token : Token}
    (h : Advance groups nesting token nesting') (tokens : List Token) :
    tooDeep? (groups + nesting.outer.length) (token :: tokens) =
      tooDeep? (groups + nesting'.outer.length) tokens := by
  cases h with
  | opener hkind hlt =>
    rw [tooDeep?, if_neg (fun hdeep => Nat.not_le.mpr hlt hdeep.2),
      Grammar.groupsBehind_of_opener hkind]
    rfl
  | closer hkind _ =>
    rw [Grammar.tooDeep?_cons_of_ne (by simp [hkind]), Grammar.groupsBehind_of_closer hkind]
    rfl
  | separator hkind | literal hkind | word hkind =>
    rw [Grammar.tooDeep?_cons_of_ne (by simp [hkind]),
      Grammar.groupsBehind_of_ne (by simp [hkind]) (by simp [hkind])]
  | operator hop =>
    rw [Grammar.tooDeep?_cons_of_ne (by simp [hop.1]), hop.groupsBehind_eq]

/-- No bracket that is read stands inside too many groups. -/
theorem tooDeep?_of_read {groups : Nat} {nesting nesting' : Nesting} {tokens : List Token}
    (hread : nesting.read groups tokens = .ok (nesting', [])) :
    tooDeep? (groups + nesting.outer.length) tokens = none := by
  induction tokens generalizing nesting with
  | nil => rfl
  | cons token tokens ih =>
    obtain ⟨between, hnext, hbetween⟩ | ⟨_, _, hrest⟩ := next_of_read_cons hread
    · rw [(advance_of_next hnext).groups, ih hbetween]
    · cases hrest

end Nesting

/-! ## Whole expressions -/

/-- An expression that is closed is what the tokens of its level derive. -/
theorem derives_of_parse {tokens : List Token} {t : Tree Atom} (h : parse tokens = .ok t) :
    Derives .expression (significant tokens) t ∧ tooDeep? 0 tokens = none ∧
      t.height ≤ maxDepth := by
  obtain ⟨⟨m, rest⟩, hlevel, hrest⟩ := bind_eq_ok_iff.mp h
  obtain ⟨⟨⟨level, outer⟩, rest'⟩, hread, hpair⟩ := bind_eq_ok_iff.mp hlevel
  obtain ⟨closed, hclose, hpure⟩ := bind_eq_ok_iff.mp hpair
  cases hpure
  cases rest with
  | cons stray rest => cases hrest
  | nil =>
    cases hrest
    obtain ⟨folded, hfold, houter⟩ := bind_eq_ok_iff.mp hclose
    cases outer with
    | cons opened outer => cases houter
    | nil =>
      cases houter
      obtain ⟨taken, htaken, hcovers⟩ := Nesting.covers_start.read hread
      rw [List.append_nil] at htaken
      rw [List.nil_append, ← htaken] at hcovers
      cases hcovers with
      | level hcovers =>
        obtain ⟨hderives, _, hle⟩ := hcovers.derives hfold
        exact ⟨hderives, Nesting.tooDeep?_of_read hread, hle⟩

end PredicateExpr
