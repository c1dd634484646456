import Mathlib.Tactic.Common
import PredicateExpr.Condition.Log
import PredicateExpr.Proofs.Course
import PredicateExpr.Proofs.Token.Isolation

/-!
# The log is a faithful account

Compiling logs in three places: where tokens are read, where they have become an expression, and
where a leaf stays without a callback. Each of them only adds to the end of the log, and none has an
influence on the outcome, so that the log of a compilation is one row of entries after another
(`Condition.compileLogged_eq`). This holds whatever effects the resolver has. For a resolver with a
state, `Condition.compileLogged_account` says what the entries are.
-/

namespace PredicateExpr

open Text (utf8Size)

variable {m : Type → Type} [Monad m] {σ ε : Type}

/-- The events of compiling are what is logged when each is its own entry. -/
theorem Condition.compileEvents_eq_compileLogged (answer : Atom → Option (Callback σ))
    (text : String) :
    compileEvents answer text = Id.run (compileLogged id (.ofFunction answer) text) :=
  rfl

/-! ## Entries one after the other -/

/-- Logging an event adds one entry at the end, and does nothing else. -/
theorem run_log (entry : Event → ε) (event : Event) (log : List ε) :
    (event.log entry : StateT (List ε) m Unit).run log = pure ((), log ++ [entry event]) :=
  rfl

variable [LawfulMonad m]

/-- A row of events is logged in order. -/
theorem run_forM_log {α : Type} (entry : Event → ε) (event : α → Event) (as : List α)
    (log : List ε) :
    (as.forM fun a => (event a).log entry : StateT (List ε) m Unit).run log =
      pure ((), log ++ as.map fun a => entry (event a)) := by
  rw [List.forM_eq_forM]
  induction as generalizing log with
  | nil => simp
  | cons a as ih =>
    rw [List.forM_cons, StateT.run_bind, run_log, pure_bind, ih, List.append_assoc]
    rfl

/-! ## Leaves without a callback -/

/-- The events about leaves that stay without a callback. -/
def Leaf.unresolvedEvents (leaves : List (Leaf σ)) : List Event :=
  (leaves.filter fun leaf => !leaf.resolved).map fun leaf => .unresolved leaf.atom

/-- These are the leaves for which there is no answer. -/
theorem Leaf.unresolvedEvents_zipWith (atoms : List Atom) (answers : List (Option (Callback σ))) :
    unresolvedEvents (List.zipWith Leaf.mk atoms answers) =
      ((atoms.zip answers).filter fun asked => asked.2.isNone).map fun asked =>
        .unresolved asked.1 := by
  have hisNone : ((fun leaf : Leaf σ => !leaf.resolved) ∘ Function.uncurry Leaf.mk) =
      fun asked => asked.2.isNone := by
    funext asked
    exact Option.not_isSome asked.2
  rw [unresolvedEvents, ← List.map_uncurry_zip_eq_zipWith, List.filter_map, hisNone, List.map_map]
  rfl

/-- A resolver below a log gives the answers that it gives without one, and it is logged when there
is none. -/
theorem Resolver.run_belowLog (entry : Event → ε) (resolver : Resolver m σ) (atom : Atom)
    (log : List ε) :
    (resolver.belowLog.reporting (Event.log entry) atom).run log =
      (fun callback? =>
        (callback?, log ++ (Leaf.unresolvedEvents [⟨atom, callback?⟩]).map entry)) <$>
          resolver atom := by
  unfold reporting belowLog
  rw [StateT.run_bind, StateT.run_lift, bind_assoc, map_eq_pure_bind]
  refine bind_congr fun callback? => ?_
  rw [pure_bind]
  cases callback? with
  | none => simp [Leaf.unresolvedEvents, Leaf.resolved, run_log]
  | some callback => simp [Leaf.unresolvedEvents, Leaf.resolved]

/-- Resolving below a log logs the leaves that have no callback afterwards, from left to right. -/
theorem Tree.run_resolve_belowLog (entry : Event → ε) (resolver : Resolver m σ)
    (t : Tree (Leaf σ)) (log : List ε) :
    (t.resolve (resolver.belowLog.reporting (Event.log entry))).run log =
      (fun resolved => (resolved, log ++ (Leaf.unresolvedEvents resolved.leaves).map entry)) <$>
        t.resolve resolver := by
  induction t generalizing log with
  | empty => simp [resolve, traverse, leaves, Leaf.unresolvedEvents]
  | leaf leaf => simp [resolve, traverse, leaves, Resolver.run_belowLog]
  | not t ih => simp [resolve_not, leaves, ih]
  | join c l r ihl ihr => simp [resolve_join, leaves, ihl, ihr, Leaf.unresolvedEvents]

namespace Condition

/-- The same for the leaves of a condition. -/
theorem run_rebind_belowLog (entry : Event → ε) (resolver : Resolver m σ)
    (condition : Condition σ) (log : List ε) :
    (condition.rebind (resolver.belowLog.reporting (Event.log entry))).run log =
      (fun bound => (bound, log ++ (Leaf.unresolvedEvents bound.root.leaves).map entry)) <$>
        condition.rebind resolver := by
  simp [rebind, Tree.run_resolve_belowLog]

/-! ## The whole log -/

/-- The log of compiling has the tokens first, those in front of an error, too. If they are an
expression, it comes next, and then the leaves that have no callback in the end. -/
theorem compileLogged_eq (entry : Event → ε) (resolver : Resolver m σ) (text : String) :
    compileLogged entry resolver text =
      match tokenize text >>= PredicateExpr.parse with
      | .error e => pure (.error e, (scan text).tokens.map fun token => entry (.lexed token))
      | .ok tree =>
        (fun bound => (.ok bound,
          ((scan text).tokens.map fun token => entry (.lexed token)) ++
            entry (.parsed tree) :: (Leaf.unresolvedEvents bound.root.leaves).map entry)) <$>
          (ofTree tree).rebind resolver := by
  rw [compileLogged, run_compile, StateT.run_bind, run_forM_log, pure_bind, List.nil_append]
  cases tokenize text >>= PredicateExpr.parse with
  | error e => rfl
  | ok tree => simp [run_log, run_rebind_belowLog]

/-- Compiling with a log has the outcome that it has without one, and leaves the resolver in the
same state. The log has a message for each token of the text or, where the text has none, of what
stands in front of the byte that is reported. Only if the text is an expression, the log goes on
with a message for it, and one for each leaf, from left to right, for which the resolver has no
answer. -/
theorem compileLogged_account {τ : Type} (resolver : Resolver (StateM τ) σ) (text : String)
    (state : τ) :
    ∃ tokens : List Token,
      (tokenize text = .ok tokens ∨
        ∃ fragment before behind, text = before ++ behind ∧
          tokenize text = .error (.unrecognised fragment (utf8Size before.toList)) ∧
          tokenize before = .ok tokens) ∧
      (compileLogged Event.toMessage resolver text).run state =
        ((((new resolver text).run.run state).1,
          tokens.map (fun token =>
            ⟨.trace, s!"lexed {token.kind.name} `{token.text}` at byte {token.offset}"⟩) ++
          match tokenize text >>= PredicateExpr.parse with
          | .error _ => []
          | .ok tree =>
            ⟨.debug, s!"parsed expression {tree.render}"⟩ ::
              ((tree.leaves.zip ((tree.leaves.mapM resolver).run state).1).filter
                fun asked => asked.2.isNone).map fun asked => ⟨.debug,
                  s!"predicate `{asked.1.render}` left unresolved; it will evaluate true"⟩),
          ((new resolver text).run.run state).2) := by
  refine ⟨(scan text).tokens, tokenize_scan_tokens text, ?_⟩
  rw [compileLogged_eq, run_new, parse_eq_map]
  cases tokenize text >>= PredicateExpr.parse with
  | error e =>
    rw [List.append_nil]
    rfl
  | ok tree =>
    have hexpression : (ofTree tree : Condition σ).expression = tree := by
      rw [expression, ofTree, Tree.map_map]
      exact Tree.map_id tree
    have hleaves := leaves_rebind resolver (ofTree tree) state
    rw [hexpression] at hleaves
    have hlog := congrArg (List.map Event.toMessage ∘ Leaf.unresolvedEvents) hleaves
    rw [Function.comp_apply, Function.comp_apply, Leaf.unresolvedEvents_zipWith,
      List.map_map] at hlog
    exact congrArg (fun remarks : List Message =>
      ((Except.ok ((ofTree tree).rebind resolver state).1,
        ((scan text).tokens.map fun token => (Event.lexed token).toMessage) ++
          (Event.parsed tree).toMessage :: remarks), ((ofTree tree).rebind resolver state).2)) hlog

/-- The tokens in front of a stretch that belongs to none are logged, and nothing else is. -/
example : (Id.run (compileLogged Event.toMessage (.unknown : Resolver Id Unit) "a & §")).2 =
    [⟨.trace, "lexed Word `a` at byte 0"⟩, ⟨.trace, "lexed Operator `&` at byte 2"⟩] := by
  decide +kernel

end Condition

end PredicateExpr
