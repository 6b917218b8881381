import ComponentView.Expr.Eval
import Mathlib.Data.Finset.Card

/-! # Calls that end

A call ends if every call that its method makes does (`Scope.Ends`). Which calls a method makes is
settled before it runs: the body of a method cannot look at its arguments, so the names that its
evaluation calls (`Expr.callNames`) depend only on the scope and on the answers to those calls. A
chain of calls that ends therefore never comes to a name twice, and goes no deeper than there are
methods in the table and one name that it lacks (`Scope.EndsWithin.bounded`).

`Scope.call` follows chains to that depth, so it answers every call that ends as if there were no
bound (`Scope.Ends.call_eq`), and expressions have the value that such answers give them
(`Scope.eval_eq`). -/

namespace ComponentView

/-- Two sequences with one first part are the same if they go on in the same way from its value. -/
theorem Traced.bind_congr {α β : Type} {x : Traced α} {f g : α → Traced β}
    (h : f x.value = g x.value) : x >>= f = x >>= g := by
  show (⟨(f x.value).value, x.said ++ (f x.value).said⟩ : Traced β) = _
  rw [h]
  rfl

variable {call call' : Calls} {scope : Scope}

/-! ## The calls of an expression -/

namespace Expr

mutual
/-- The names that the evaluation of an expression calls, where `call` answers the calls. -/
def callNames (call : Calls) (scope : Scope) : Expr → List String
  | literal _ => []
  | prop _ => []
  | state _ => []
  | not a => callNames call scope a
  | equals a b => callNames call scope a ++ callNames call scope b
  | lessThan a b => callNames call scope a ++ callNames call scope b
  | and a b => callNames call scope a ++
      if (a.evalWith call scope).value.isTruthy then callNames call scope b else []
  | or a b => callNames call scope a ++
      if (a.evalWith call scope).value.isTruthy then [] else callNames call scope b
  | len a => callNames call scope a
  | concat parts => callNamesAll call scope parts
  | cond test yes no => callNames call scope test ++
      if (test.evalWith call scope).value.isTruthy then callNames call scope yes
      else callNames call scope no
  | .call method arguments => callNamesAll call scope arguments ++ [method]

/-- The names that the evaluation of some expressions calls. -/
def callNamesAll (call : Calls) (scope : Scope) : List Expr → List String
  | [] => []
  | e :: rest => callNames call scope e ++ callNamesAll call scope rest
end

mutual
/-- The value of an expression depends on the calls that its evaluation makes only. -/
theorem evalWith_congr : (e : Expr) → (∀ n ∈ e.callNames call scope, call' n = call n) →
    e.evalWith call' scope = e.evalWith call scope ∧
      e.callNames call' scope = e.callNames call scope
  | literal _, _ => ⟨by rw [evalWith, evalWith], by rw [callNames, callNames]⟩
  | prop _, _ => ⟨by rw [evalWith, evalWith], by rw [callNames, callNames]⟩
  | state _, _ => ⟨by rw [evalWith, evalWith], by rw [callNames, callNames]⟩
  | not a, h => by
    rw [callNames] at h
    obtain ⟨ea, na⟩ := evalWith_congr a h
    exact ⟨by rw [evalWith, evalWith, ea], by rw [callNames, callNames, na]⟩
  | equals a b, h => by
    rw [callNames, List.forall_mem_append] at h
    obtain ⟨ea, na⟩ := evalWith_congr a h.1
    obtain ⟨eb, nb⟩ := evalWith_congr b h.2
    exact ⟨by rw [evalWith, evalWith, ea, eb], by rw [callNames, callNames, na, nb]⟩
  | lessThan a b, h => by
    rw [callNames, List.forall_mem_append] at h
    obtain ⟨ea, na⟩ := evalWith_congr a h.1
    obtain ⟨eb, nb⟩ := evalWith_congr b h.2
    exact ⟨by rw [evalWith, evalWith, ea, eb], by rw [callNames, callNames, na, nb]⟩
  | and a b, h => by
    rw [callNames, List.forall_mem_append] at h
    obtain ⟨ea, na⟩ := evalWith_congr a h.1
    rw [evalWith, evalWith, callNames, callNames, ea, na]
    cases truth : (a.evalWith call scope).value.isTruthy with
    | false => exact ⟨Traced.bind_congr (by simp [truth]), rfl⟩
    | true =>
      rw [truth, if_pos rfl] at h
      obtain ⟨eb, nb⟩ := evalWith_congr b h.2
      exact ⟨Traced.bind_congr (by simp [truth, eb]), by simp [nb]⟩
  | or a b, h => by
    rw [callNames, List.forall_mem_append] at h
    obtain ⟨ea, na⟩ := evalWith_congr a h.1
    rw [evalWith, evalWith, callNames, callNames, ea, na]
    cases truth : (a.evalWith call scope).value.isTruthy with
    | true => exact ⟨Traced.bind_congr (by simp [truth]), rfl⟩
    | false =>
      rw [truth, if_neg Bool.false_ne_true] at h
      obtain ⟨eb, nb⟩ := evalWith_congr b h.2
      exact ⟨Traced.bind_congr (by simp [truth, eb]), by simp [nb]⟩
  | len a, h => by
    rw [callNames] at h
    obtain ⟨ea, na⟩ := evalWith_congr a h
    exact ⟨by rw [evalWith, evalWith, ea], by rw [callNames, callNames, na]⟩
  | concat parts, h => by
    rw [callNames] at h
    obtain ⟨ep, np⟩ := evalAll_congr parts h
    exact ⟨by rw [evalWith, evalWith, ep], by rw [callNames, callNames, np]⟩
  | cond test yes no, h => by
    rw [callNames, List.forall_mem_append] at h
    obtain ⟨et, nt⟩ := evalWith_congr test h.1
    rw [evalWith, evalWith, callNames, callNames, et, nt]
    cases truth : (test.evalWith call scope).value.isTruthy with
    | true =>
      rw [truth, if_pos rfl] at h
      obtain ⟨ey, ny⟩ := evalWith_congr yes h.2
      exact ⟨Traced.bind_congr (by simp [truth, ey]), by simp [ny]⟩
    | false =>
      rw [truth, if_neg Bool.false_ne_true] at h
      obtain ⟨en, nn⟩ := evalWith_congr no h.2
      exact ⟨Traced.bind_congr (by simp [truth, en]), by simp [nn]⟩
  | .call method arguments, h => by
    rw [callNames, List.forall_mem_append, List.forall_mem_singleton] at h
    obtain ⟨ea, na⟩ := evalAll_congr arguments h.1
    exact ⟨by rw [evalWith, evalWith, ea, h.2], by rw [callNames, callNames, na]⟩

/-- A list of expressions has the same values, and calls the same, if the calls it makes answer
alike. -/
theorem evalAll_congr : (es : List Expr) → (∀ n ∈ callNamesAll call scope es, call' n = call n) →
    evalAll call' scope es = evalAll call scope es ∧
      callNamesAll call' scope es = callNamesAll call scope es
  | [], _ => ⟨by rw [evalAll, evalAll], by rw [callNamesAll, callNamesAll]⟩
  | e :: rest, h => by
    rw [callNamesAll, List.forall_mem_append] at h
    obtain ⟨ee, ne⟩ := evalWith_congr e h.1
    obtain ⟨er, nr⟩ := evalAll_congr rest h.2
    exact ⟨by rw [evalAll, evalAll, ee, er], by rw [callNamesAll, callNamesAll, ne, nr]⟩
end

end Expr

/-! ## The calls of a method -/

namespace Method

/-- The names that a method calls, whatever its arguments are. -/
def callNames (call : Calls) (scope : Scope) : Method → List String
  | expr body => body.callNames call scope
  | forward method => [method]
  | record _ body => body.callNames call scope
  | _ => []

/-- A method results in the same, and calls the same, if the calls it makes answer alike. -/
theorem run_congr (m : Method) (h : ∀ n ∈ m.callNames call scope, call' n = call n) :
    m.run call' scope = m.run call scope ∧ m.callNames call' scope = m.callNames call scope := by
  induction m with
  | expr body =>
    obtain ⟨eb, nb⟩ := Expr.evalWith_congr body h
    exact ⟨funext fun args => eb, nb⟩
  | forward method =>
    have same := h method (List.mem_singleton_self method)
    exact ⟨funext fun args => congrFun same args, rfl⟩
  | record tag body ih =>
    obtain ⟨eb, nb⟩ := ih h
    refine ⟨funext fun args => ?_, nb⟩
    have same : body.run call' scope args = body.run call scope args := congrFun eb args
    rw [run, run, same]
  | _ => exact ⟨rfl, rfl⟩

end Method

/-! ## Chains of calls -/

namespace Scope

variable {k j : Nat} {name : String}

/-- The answer to a call, where `method?` finds the method of a name and `inner` answers the calls
that the method makes. A name without a method is noted and gives null. -/
def answer (scope : Scope) (method? : String → Option Method) (inner : Calls) : Calls :=
  fun name args =>
  match method? name with
  | some method => method.run inner scope args
  | none => do
    Traced.say (.log .debug ("call to unknown method `" ++ name ++ "`"))
    return .null

/-- A call of a method answers with what its run results in. -/
theorem answer_of_some {method? : String → Option Method} {method : Method}
    (found : method? name = some method) (inner : Calls) :
    scope.answer method? inner name = method.run inner scope := by
  funext args
  rw [answer, found]

/-- A call of a method that does not exist answers with null. -/
theorem value_answer_of_none {method? : String → Option Method} (missing : method? name = none)
    (inner : Calls) (args : List Value) : (scope.answer method? inner name args).value = .null := by
  rw [answer, missing]
  rfl

/-- With one more step of depth a method may make one more step of calls. -/
theorem callWithin_succ (scope : Scope) (k : Nat) :
    scope.callWithin (k + 1) = scope.answer (scope.methods.get? ·) (scope.callWithin k) := rfl

/-- The calls that follow from a call of the name go at most `k` deep. -/
def EndsWithin (scope : Scope) : (k : Nat) → String → Prop
  | 0, _ => False
  | k + 1, name => ∀ method, scope.methods.get? name = some method →
      ∀ n ∈ method.callNames (scope.callWithin k) scope, EndsWithin scope k n

/-- Answers to a name agree if the answers to all names do that its method calls. -/
theorem answer_congr (method? : String → Option Method)
    (h : ∀ method, method? name = some method →
      ∀ n ∈ method.callNames call scope, call' n = call n) :
    scope.answer method? call' name = scope.answer method? call name := by
  unfold answer
  split
  · next method found => exact (method.run_congr (h method found)).1
  · rfl

/-- Where the depth is enough, one more changes nothing. -/
theorem EndsWithin.next (h : scope.EndsWithin k name) :
    scope.EndsWithin (k + 1) name ∧ scope.callWithin (k + 1) name = scope.callWithin k name := by
  induction k generalizing name with
  | zero => exact h.elim
  | succ k ih =>
    have agree (method : Method) (found : scope.methods.get? name = some method) :
        ∀ n ∈ method.callNames (scope.callWithin k) scope,
          scope.callWithin (k + 1) n = scope.callWithin k n :=
      fun n hn => (ih (h method found n hn)).2
    constructor
    · intro method found n hn
      rw [(method.run_congr (agree method found)).2] at hn
      exact (ih (h method found n hn)).1
    · exact answer_congr (scope.methods.get? ·) agree

/-- A call that ends within a depth ends within larger ones, and answers alike. -/
theorem EndsWithin.mono (h : scope.EndsWithin k name) (le : k ≤ j) :
    scope.EndsWithin j name ∧ scope.callWithin j name = scope.callWithin k name := by
  induction j, le using Nat.le_induction with
  | base => exact ⟨h, rfl⟩
  | succ j _ ih => exact ⟨ih.1.next.1, ih.1.next.2.trans ih.2⟩

/-- Where one more depth brings in no other name, the next one does not either. -/
theorem endsWithin_of_stable (stable : ∀ n, scope.EndsWithin (k + 1) n → scope.EndsWithin k n)
    (h : scope.EndsWithin (k + 2) name) : scope.EndsWithin (k + 1) name := by
  intro method found n hn
  have agree : ∀ n ∈ method.callNames (scope.callWithin (k + 1)) scope,
      scope.callWithin k n = scope.callWithin (k + 1) n :=
    fun n hn => ((stable n (h method found n hn)).next.2).symm
  rw [(method.run_congr agree).2] at hn
  exact stable n (h method found n hn)

open Classical in
/-- The names of methods whose calls go at most `k + 1` deep. -/
noncomputable def shallow (scope : Scope) (k : Nat) : Finset String :=
  (scope.methods.map Prod.fst).toFinset.filter (scope.EndsWithin (k + 1))

/-- Shallow are the methods whose calls end one step deeper. -/
theorem mem_shallow : name ∈ scope.shallow k ↔
    name ∈ scope.methods.map Prod.fst ∧ scope.EndsWithin (k + 1) name := by
  classical
  simp only [shallow, Finset.mem_filter, List.mem_toFinset]

/-- A name without a method is answered at once; the others are counted. -/
theorem endsWithin_iff_of_shallow (same : scope.shallow k = scope.shallow j) :
    scope.EndsWithin (k + 1) name ↔ scope.EndsWithin (j + 1) name := by
  cases found : scope.methods.get? name with
  | none => exact iff_of_true (fun _ h => by simp [found] at h) fun _ h => by simp [found] at h
  | some method =>
    have known : name ∈ scope.methods.map Prod.fst := by
      obtain ⟨n, hn, -⟩ := NameTable.exists_position found
      exact List.mem_map_of_mem (List.mem_of_getElem? hn)
    have both : name ∈ scope.shallow k ↔ name ∈ scope.shallow j := by rw [same]
    simpa only [mem_shallow, known, true_and] using both

/-- More methods are shallow at larger depths. -/
theorem shallow_subset (le : k ≤ j) : scope.shallow k ⊆ scope.shallow j := by
  intro n hn
  rw [mem_shallow] at hn ⊢
  exact ⟨hn.1, (hn.2.mono (Nat.succ_le_succ le)).1⟩

/-- No more methods are shallow than there are. -/
theorem card_shallow_le : (scope.shallow k).card ≤ scope.methods.length := by
  refine (Finset.card_le_card fun n hn => ?_).trans
    ((List.toFinset_card_le (scope.methods.map Prod.fst)).trans (List.length_map _).le)
  exact List.mem_toFinset.mpr (mem_shallow.mp hn).1

/-- If no more methods become shallow, the same are. -/
theorem shallow_eq_of_card (le : k ≤ j) (same : (scope.shallow k).card = (scope.shallow j).card) :
    scope.shallow k = scope.shallow j :=
  Finset.eq_of_subset_of_card_le (shallow_subset le) same.ge

/-- Where one more depth brings in no method, no further depth does. -/
theorem shallow_stable (same : scope.shallow k = scope.shallow (k + 1)) :
    scope.shallow (k + 1) = scope.shallow (k + 2) := by
  refine (shallow_subset (k + 1).le_succ).antisymm fun n hn => ?_
  rw [mem_shallow] at hn ⊢
  exact ⟨hn.1, endsWithin_of_stable (fun n => (endsWithin_iff_of_shallow same).mpr) hn.2⟩

/-- Calls that end go no deeper than there are methods, and one unknown name. -/
theorem EndsWithin.bounded (h : scope.EndsWithin k name) :
    scope.EndsWithin (scope.methods.length + 1) name := by
  have last : (scope.shallow (k + scope.methods.length)).card
      = (scope.shallow scope.methods.length).card :=
    Nat.stabilises_of_monotone (fun _ _ le => Finset.card_le_card (shallow_subset le))
      (fun _ => card_shallow_le)
      (fun m same => congrArg Finset.card (shallow_stable (shallow_eq_of_card m.le_succ same)))
      (Nat.le_add_left _ _)
  have deep := (h.mono (show k ≤ k + scope.methods.length + 1 by omega)).1
  exact (endsWithin_iff_of_shallow (shallow_eq_of_card (Nat.le_add_left _ _) last.symm)).mpr deep

/-- A call of the name ends: so do all calls that its method makes. -/
inductive Ends (scope : Scope) : String → Prop
  | intro {name : String} (h : ∀ method, scope.methods.get? name = some method →
      ∀ n ∈ method.callNames scope.call scope, Ends scope n) : Ends scope name

/-- A call that ends does so within as many steps as there are methods, and one more. -/
theorem Ends.bounded (h : scope.Ends name) :
    scope.EndsWithin (scope.methods.length + 1) name := by
  induction h with
  | intro _ ih =>
    have deeper : scope.EndsWithin (scope.methods.length + 2) _ := ih
    exact deeper.bounded

/-- A call that ends is answered by its method, with calls that are answered in the same way. -/
theorem Ends.call_eq (h : scope.Ends name) :
    scope.call name = scope.answer (scope.methods.get? ·) scope.call name :=
  h.bounded.next.2.symm

/-- An expression whose calls end has the value that the answers to them give it. -/
theorem eval_eq {e : Expr} (h : ∀ n ∈ e.callNames scope.call scope, scope.Ends n) :
    e.eval scope = e.evalWith (scope.answer (scope.methods.get? ·) scope.call) scope :=
  (e.evalWith_congr fun n hn => (h n hn).call_eq.symm).1.symm

end Scope

end ComponentView
