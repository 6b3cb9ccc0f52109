import ScopeFlow.Proofs.Footprint.Access
import ScopeFlow.Proofs.Parameter.Walk

/-!
# Reading through parameters

There are three ways to ask for the item of a parameter. They differ in what
they make of a value that is no variable's, and of none at all; on where to
look and on which types to take they agree.

* `Heap.Nearest` says which of some scopes a name is looked up in: the first
  that binds it. `Context.find?_eq` says that the scopes of all frames may be
  searched, with repeats or without;
* `Heap.Refers` says what a resolution comes to on a heap: a variable, a value
  of a declaration, a missing variable, or a failure, and always exactly one of
  them (`Heap.exists_refers`, `Refers.unique`);
* `Refers.get`, `Refers.getVariable` and `Refers.getOptional` say what each way
  of asking makes of that, and `Context.readings_agree` puts them together.

What a parameter refers to depends on the scopes of the frames alone, and
there on the one name that it stands for (`Refers.congr`).
-/

namespace ScopeFlow

variable {ctx : Context} {h h' : Heap} {ss before after : List ScopeId} {s t : ScopeId}
  {name parameter : String} {i j : ItemId} {type : ValueType} {e : Failure}
  {resolution : Except Failure Resolution}

/-! ## The scope that binds a name -/

namespace Heap

/-- Among some scopes, `s` is the first that binds a name, and binds it to `i`. -/
def Nearest (h : Heap) (name : String) (ss : List ScopeId) (s : ScopeId) (i : ItemId) : Prop :=
  ∃ before after, ss = before ++ s :: after ∧ (∀ t ∈ before, h.binding? t name = none) ∧
    h.binding? s name = some i

/-- None of some scopes binds a name. -/
def Unbound (h : Heap) (name : String) (ss : List ScopeId) : Prop :=
  ∀ t ∈ ss, h.binding? t name = none

theorem findIn_append (hbefore : h.Unbound name before) :
    h.findIn name (before ++ ss) = h.findIn name ss := by
  induction before with
  | nil => rfl
  | cons t rest ih =>
    have ht : h.binding? t name = none := hbefore t List.mem_cons_self
    have hrest : h.Unbound name rest := fun u hu => hbefore u (List.mem_cons_of_mem t hu)
    simp only [List.cons_append, findIn, ht]
    exact ih hrest

theorem Nearest.findIn_eq (hn : h.Nearest name ss s i) :
    h.findIn name ss = some (s, i) := by
  obtain ⟨before, after, rfl, hbefore, hs⟩ := hn
  rw [findIn_append hbefore]
  simp [findIn, hs]

theorem Unbound.findIn_eq (hn : h.Unbound name ss) : h.findIn name ss = none := by
  have hnil : h.findIn name (ss ++ []) = h.findIn name [] := findIn_append hn
  rwa [List.append_nil] at hnil

/-- Either one of the scopes is the nearest that binds the name, or none does. -/
theorem nearest_or_unbound (h : Heap) (name : String) (ss : List ScopeId) :
    (∃ s i, h.Nearest name ss s i) ∨ h.Unbound name ss := by
  induction ss with
  | nil => exact .inr fun t ht => nomatch ht
  | cons t rest ih =>
    cases ht : h.binding? t name with
    | some i => exact .inl ⟨t, i, [], rest, rfl, by simp, ht⟩
    | none =>
      rcases ih with ⟨s, i, before, after, rfl, hbefore, hs⟩ | hrest
      · refine .inl ⟨s, i, t :: before, after, rfl, ?_, hs⟩
        intro u hu
        rcases List.mem_cons.mp hu with rfl | hu
        · exact ht
        · exact hbefore u hu
      · refine .inr fun u hu => ?_
        rcases List.mem_cons.mp hu with rfl | hu
        · exact ht
        · exact hrest u hu

theorem Nearest.mem (hn : h.Nearest name ss s i) : s ∈ ss := by
  obtain ⟨before, after, rfl, -, -⟩ := hn
  simp

theorem Nearest.binding (hn : h.Nearest name ss s i) : h.binding? s name = some i := by
  obtain ⟨_, _, _, _, hs⟩ := hn
  exact hs

/-- A name has one nearest scope, and one item there. -/
theorem Nearest.unique (hn : h.Nearest name ss s i) (hn' : h.Nearest name ss t j) :
    s = t ∧ i = j := by
  have heq := hn.findIn_eq.symm.trans hn'.findIn_eq
  simpa using heq

theorem findIn_eq_some_iff : h.findIn name ss = some (s, i) ↔ h.Nearest name ss s i := by
  constructor
  · intro hfind
    rcases h.nearest_or_unbound name ss with ⟨t, j, hn⟩ | hn
    · obtain ⟨rfl, rfl⟩ := Prod.mk.inj (Option.some.inj (hn.findIn_eq.symm.trans hfind))
      exact hn
    · rw [hn.findIn_eq] at hfind
      cases hfind
  · exact Nearest.findIn_eq

theorem findIn_eq_none_iff : h.findIn name ss = none ↔ h.Unbound name ss := by
  constructor
  · intro hfind
    rcases h.nearest_or_unbound name ss with ⟨t, j, hn⟩ | hn
    · rw [hn.findIn_eq] at hfind
      cases hfind
    · exact hn
  · exact Unbound.findIn_eq

theorem Nearest.not_unbound (hn : h.Nearest name ss s i) : ¬ h.Unbound name ss := by
  intro hnone
  have hs := hnone s hn.mem
  rw [hn.binding] at hs
  cases hs

theorem Nearest.congr (hsame : ∀ u ∈ ss, h'.binding? u name = h.binding? u name)
    (hn : h.Nearest name ss s i) : h'.Nearest name ss s i := by
  have hs := (hsame s hn.mem).trans hn.binding
  obtain ⟨before, after, rfl, hbefore, -⟩ := hn
  refine ⟨before, after, rfl, fun u hu => ?_, hs⟩
  rw [hsame u (List.mem_append_left _ hu)]
  exact hbefore u hu

theorem Unbound.congr (hsame : ∀ u ∈ ss, h'.binding? u name = h.binding? u name)
    (hn : h.Unbound name ss) : h'.Unbound name ss := by
  intro u hu
  rw [hsame u hu]
  exact hn u hu

end Heap

/-! ## The scopes of the frames -/

namespace Context

/-- The scopes of a context and of all frames above it, one for each frame. -/
def scopes (ctx : Context) : List ScopeId := ctx.chain.map scope

theorem scopes_frame {id : ContextId} {op : OperatorId} {trail : List OperatorId} :
    (frame id op s trail ctx).scopes = s :: ctx.scopes := rfl

/-- The scopes start with the bound one. -/
theorem exists_scopes_eq (ctx : Context) : ∃ above, ctx.scopes = ctx.scope :: above := by
  cases ctx with
  | root id g s => exact ⟨[], rfl⟩
  | frame id op s trail p => exact ⟨p.scopes, rfl⟩

theorem scope_mem_scopes (ctx : Context) : ctx.scope ∈ ctx.scopes := by
  obtain ⟨above, habove⟩ := ctx.exists_scopes_eq
  simp [habove]

/-- What is searched are the scopes of the frames. -/
theorem mem_scopeChain : t ∈ ctx.scopeChain ↔ t ∈ ctx.scopes := by
  induction ctx with
  | root id g s => rfl
  | frame id op s trail p ih =>
    rw [scopeChain, scopes_frame, List.mem_cons]
    by_cases hrepeat : p.scope = s
    · -- The scope is left out, but the frame above has it.
      rw [if_pos hrepeat, ih, ← hrepeat]
      constructor
      · exact .inr
      · intro ht
        rcases ht with rfl | ht
        · exact p.scope_mem_scopes
        · exact ht
    · rw [if_neg hrepeat, List.mem_cons, ih]

/-- A repeat of the scope searched before finds nothing new. -/
theorem find?_eq (ctx : Context) (h : Heap) (name : String) :
    ctx.find? h name = h.findIn name ctx.scopes := by
  unfold find?
  induction ctx with
  | root id g s => rfl
  | frame id op s trail p ih =>
    rw [scopeChain, scopes_frame]
    by_cases hrepeat : p.scope = s
    · rw [if_pos hrepeat, ih]
      obtain ⟨above, habove⟩ := p.exists_scopes_eq
      rw [habove, hrepeat]
      cases hs : h.binding? s name with
      | some i => simp [Heap.findIn, hs]
      | none => simp [Heap.findIn, hs]
    · rw [if_neg hrepeat]
      simp only [Heap.findIn, ih]

end Context

/-! ## What a resolution comes to -/

/-- The type that a resolved parameter is declared with. -/
def Resolution.expected : Resolution → ValueType
  | .fixed _ type => type
  | .variable _ _ type => type

/-- What a parameter refers to on a heap. -/
inductive Referent where
  /-- The item of a variable, which is shared with whoever asks. -/
  | shared (i : ItemId) (type : ValueType)
  /-- A default or fixed value, which is handed out as a copy. -/
  | declared (i : ItemId) (type : ValueType)
  | missing (name : String)
  | refused (e : Failure)

namespace Referent

/-- The item that is meant and the type that is asked for, whether or not the
one fits the other. -/
def meant? : Referent → Option (ItemId × ValueType)
  | shared i type => some (i, type)
  | declared i type => some (i, type)
  | missing _ => none
  | refused _ => none

/-- The item handed out. -/
def get (parameter : String) : Referent → Act Heap ItemId
  | shared i type => do
    Act.look fun h => h.checkType parameter type i
    pure i
  | declared i type => Context.detached parameter type i
  | missing name => Act.fail (.unknownVariable name)
  | refused e => Act.fail e

/-- The item of a variable handed out. -/
def getVariable (parameter : String) : Referent → Act Heap (Option ItemId)
  | shared i type => do
    Act.look fun h => h.checkType parameter type i
    pure (some i)
  | declared _ _ => pure none
  | missing _ => pure none
  | refused e => Act.fail e

end Referent

/-- What a resolution comes to, where the name that it ends at is looked up in
some scopes of a heap. -/
inductive Heap.Refers (h : Heap) (ss : List ScopeId) : Except Failure Resolution → Referent → Prop
  | refused {e : Failure} : h.Refers ss (.error e) (.refused e)
  | fixed {i : ItemId} {type : ValueType} : h.Refers ss (.ok (.fixed i type)) (.declared i type)
  | bound {name : String} {default : Option ItemId} {type : ValueType} {s : ScopeId} {i : ItemId} :
      h.Nearest name ss s i →
      h.Refers ss (.ok (.variable name default type)) (.shared i type)
  | default {name : String} {type : ValueType} {i : ItemId} : h.Unbound name ss →
      h.Refers ss (.ok (.variable name (some i) type)) (.declared i type)
  | missing {name : String} {type : ValueType} : h.Unbound name ss →
      h.Refers ss (.ok (.variable name none type)) (.missing name)

namespace Heap

variable {r r' : Referent}

theorem exists_refers (h : Heap) (ss : List ScopeId) (resolution : Except Failure Resolution) :
    ∃ r, h.Refers ss resolution r := by
  cases resolution with
  | error e => exact ⟨_, .refused⟩
  | ok resolution =>
    cases resolution with
    | fixed i type => exact ⟨_, .fixed⟩
    | «variable» name default type =>
      rcases h.nearest_or_unbound name ss with ⟨s, i, hn⟩ | hn
      · exact ⟨_, .bound hn⟩
      · cases default with
        | some i => exact ⟨_, .default hn⟩
        | none => exact ⟨_, .missing hn⟩

theorem Refers.unique (hr : h.Refers ss resolution r) (hr' : h.Refers ss resolution r') :
    r = r' := by
  cases hr with
  | refused => cases hr'; rfl
  | fixed => cases hr'; rfl
  | bound hn =>
    cases hr' with
    | bound hn' =>
      obtain ⟨-, rfl⟩ := hn.unique hn'
      rfl
    | default hn' => exact absurd hn' hn.not_unbound
    | missing hn' => exact absurd hn' hn.not_unbound
  | default hn =>
    cases hr' with
    | bound hn' => exact absurd hn hn'.not_unbound
    | default _ => rfl
  | missing hn =>
    cases hr' with
    | bound hn' => exact absurd hn hn'.not_unbound
    | missing _ => rfl

/-- Only the bindings of the name that is looked up matter. -/
theorem Refers.congr (hr : h.Refers ss resolution r)
    (hsame : ∀ name default type, resolution = .ok (.variable name default type) →
      ∀ t ∈ ss, h'.binding? t name = h.binding? t name) : h'.Refers ss resolution r := by
  cases hr with
  | refused => exact .refused
  | fixed => exact .fixed
  | bound hn => exact .bound (hn.congr (hsame _ _ _ rfl))
  | default hn => exact .default (hn.congr (hsame _ _ _ rfl))
  | missing hn => exact .missing (hn.congr (hsame _ _ _ rfl))

theorem Refers.eq_error (hr : h.Refers ss resolution (.refused e)) : resolution = .error e := by
  cases hr
  rfl

/-- The type asked for is the one that the resolution has started with. -/
theorem Refers.expected (hr : h.Refers ss resolution r) (hmeant : r.meant? = some (i, type)) :
    ∃ res, resolution = .ok res ∧ res.expected = type := by
  cases hr with
  | refused => cases hmeant
  | missing hn => cases hmeant
  | fixed => cases hmeant; exact ⟨_, rfl, rfl⟩
  | bound hn => cases hmeant; exact ⟨_, rfl, rfl⟩
  | default hn => cases hmeant; exact ⟨_, rfl, rfl⟩

theorem Refers.get (hr : h.Refers ctx.scopes (ctx.resolve parameter) r) :
    ctx.get parameter h = r.get parameter h := by
  unfold Context.get
  rw [Act.bind_apply, Act.ofExcept_apply]
  generalize ctx.resolve parameter = resolution at hr
  cases hr with
  | refused => rfl
  | fixed => rfl
  | bound hn =>
    simp only [Act.bind_apply, Act.see_apply, Context.find?_eq, hn.findIn_eq]
    rfl
  | default hn =>
    simp only [Act.bind_apply, Act.see_apply, Context.find?_eq, hn.findIn_eq]
    rfl
  | missing hn =>
    simp only [Act.bind_apply, Act.see_apply, Context.find?_eq, hn.findIn_eq]
    rfl

theorem Refers.getVariable (hr : h.Refers ctx.scopes (ctx.resolve parameter) r) :
    ctx.getVariable parameter h = r.getVariable parameter h := by
  unfold Context.getVariable
  rw [Act.bind_apply, Act.ofExcept_apply]
  generalize ctx.resolve parameter = resolution at hr
  cases hr with
  | refused => rfl
  | fixed => rfl
  | bound hn =>
    simp only [Act.bind_apply, Act.see_apply, Context.find?_eq, hn.findIn_eq]
    rfl
  | default hn =>
    simp only [Act.bind_apply, Act.see_apply, Context.find?_eq, hn.findIn_eq]
    rfl
  | missing hn =>
    simp only [Act.bind_apply, Act.see_apply, Context.find?_eq, hn.findIn_eq]
    rfl

end Heap

/-! ## What comes of asking -/

/-- What follows a check is done if the type of the item is accepted. -/
theorem Act.check_bind_apply {α : Type} {f : Unit → Act Heap α} :
    (Act.look (fun h => h.checkType parameter type i) >>= f) h =
      if type.accepts (h.value i).type then f () h
      else (.error (.typeMismatch parameter type (h.value i).type), h) := by
  rw [Act.bind_apply, Act.look_apply, Heap.checkType]
  by_cases haccepts : type.accepts (h.value i).type
  · rw [if_pos haccepts, if_pos haccepts]
  · rw [if_neg haccepts, if_neg haccepts]

namespace Referent

variable {r : Referent}

@[simp] theorem get_shared : (shared i type).get parameter h =
    if type.accepts (h.value i).type then (.ok i, h)
    else (.error (.typeMismatch parameter type (h.value i).type), h) :=
  Act.check_bind_apply

@[simp] theorem get_declared : (declared i type).get parameter h =
    if type.accepts (h.value i).type then (.ok ⟨h.items.size⟩, (h.newItem (h.value i)).2)
    else (.error (.typeMismatch parameter type (h.value i).type), h) :=
  Act.check_bind_apply

@[simp] theorem get_missing :
    (missing name).get parameter h = (.error (.unknownVariable name), h) := rfl

@[simp] theorem get_refused : (refused e).get parameter h = (.error e, h) := rfl

@[simp] theorem getVariable_shared : (shared i type).getVariable parameter h =
    if type.accepts (h.value i).type then (.ok (some i), h)
    else (.error (.typeMismatch parameter type (h.value i).type), h) :=
  Act.check_bind_apply

@[simp] theorem getVariable_declared :
    (declared i type).getVariable parameter h = (.ok none, h) := rfl

@[simp] theorem getVariable_missing :
    (missing name).getVariable parameter h = (.ok none, h) := rfl

@[simp] theorem getVariable_refused : (refused e).getVariable parameter h = (.error e, h) := rfl

/-- An item of a type that is not accepted is refused, be it a variable's or not. -/
theorem get_eq_mismatch_iff {q : String} {expected found : ValueType} :
    (r.get parameter h).1 = .error (.typeMismatch q expected found) ↔
      r = .refused (.typeMismatch q expected found) ∨
        ∃ i, r.meant? = some (i, expected) ∧ expected.accepts (h.value i).type = false ∧
          q = parameter ∧ found = (h.value i).type := by
  cases r with
  | shared i type =>
    by_cases haccepts : type.accepts (h.value i).type <;> simp [meant?, haccepts] <;> grind
  | declared i type =>
    by_cases haccepts : type.accepts (h.value i).type <;> simp [meant?, haccepts] <;> grind
  | missing name => simp [meant?]
  | refused e => simp [meant?]

/-- What is handed out depends on items alone. -/
theorem get_of_items (r : Referent) (parameter : String) (hitems : h'.items = h.items) :
    (r.get parameter h').1 = (r.get parameter h).1 ∧
      (r.get parameter h').2.items = (r.get parameter h).2.items := by
  have hvalue := Heap.value_congr hitems
  cases r with
  | shared i type =>
    by_cases haccepts : type.accepts (h.value i).type <;> simp [hvalue, haccepts, hitems]
  | declared i type =>
    by_cases haccepts : type.accepts (h.value i).type <;>
      simp [hvalue, haccepts, hitems, Heap.newItem]
  | missing name => exact ⟨rfl, hitems⟩
  | refused e => exact ⟨rfl, hitems⟩

theorem getVariable_of_items (r : Referent) (parameter : String) (hitems : h'.items = h.items) :
    (r.getVariable parameter h').1 = (r.getVariable parameter h).1 := by
  have hvalue := Heap.value_congr hitems
  cases r with
  | shared i type =>
    by_cases haccepts : type.accepts (h.value i).type <;> simp [hvalue, haccepts]
  | declared i type => rfl
  | missing name => rfl
  | refused e => rfl

end Referent

namespace Context

/-- Asking for an item that need not be there turns one failure into an answer. -/
theorem getOptional_eq (ctx : Context) (parameter : String) (h : Heap) :
    ctx.getOptional parameter h =
      (match (ctx.get parameter h).1 with
        | .ok i => .ok (some i)
        | .error (.unknownVariable _) => .ok none
        | .error e => .error e, (ctx.get parameter h).2) := by
  simp only [getOptional, Act.bind_apply, Act.attempt]
  rcases ctx.get parameter h with ⟨e | i, h'⟩
  · cases e <;> rfl
  · rfl

end Context

/-! ## Resolutions -/

theorem Graph.get_eq_error {g : Graph} {op : OperatorId} (hop : g.get op = .error e) :
    e = .unknownOperator op := by
  unfold Graph.get at hop
  split at hop <;> cases hop
  rfl

namespace Context

variable {g : Graph} {w : Passage} {resolution : Resolution}

theorem follow_type (hr : ctx.follow g parameter type w = .ok resolution) :
    resolution.expected = type := by
  induction ctx generalizing w with
  | root id graph s =>
    rw [follow] at hr
    cases hframe : followFrame g.parameters w.left [] w <;> rw [hframe] at hr <;> cases hr <;> rfl
  | frame id op s trail p ih =>
    rw [follow] at hr
    cases hop : g.get op with
    | error e => rw [hop] at hr; cases hr
    | ok operator =>
      rw [hop] at hr
      dsimp only at hr
      cases hframe : followFrame operator.parameters w.left [] w with
      | fixed value => rw [hframe] at hr; cases hr; rfl
      | circle names => rw [hframe] at hr; cases hr
      | above w' => rw [hframe] at hr; exact ih hr

/-- The type is the one that the bound operator declares for the parameter. -/
theorem resolve_type (hr : ctx.resolve parameter = .ok resolution) :
    ∃ p, ctx.declared? parameter = some p ∧ resolution.expected = p.type := by
  unfold resolve at hr
  cases hps : ctx.parameters with
  | error e => rw [hps] at hr; cases hr
  | ok ps =>
    rw [hps] at hr
    dsimp only at hr
    cases hp : ps.get? parameter with
    | none => rw [hp] at hr; cases hr
    | some p =>
      rw [hp] at hr
      exact ⟨p, (declared?_eq hps).trans hp, follow_type hr⟩

theorem follow_error_cases (hr : ctx.follow g parameter type w = .error e) :
    (∃ names, e = .aliasCycle parameter names) ∨ ∃ op, e = .unknownOperator op := by
  induction ctx generalizing w with
  | root id graph s =>
    rw [follow] at hr
    cases hframe : followFrame g.parameters w.left [] w with
    | fixed value => rw [hframe] at hr; cases hr
    | circle names => rw [hframe] at hr; cases hr; exact .inl ⟨names, rfl⟩
    | above w' => rw [hframe] at hr; cases hr
  | frame id op s trail p ih =>
    rw [follow] at hr
    cases hop : g.get op with
    | error e' => rw [hop] at hr; cases hr; exact .inr ⟨op, Graph.get_eq_error hop⟩
    | ok operator =>
      rw [hop] at hr
      dsimp only at hr
      cases hframe : followFrame operator.parameters w.left [] w with
      | fixed value => rw [hframe] at hr; cases hr
      | circle names => rw [hframe] at hr; cases hr; exact .inl ⟨names, rfl⟩
      | above w' => rw [hframe] at hr; exact ih hr

theorem parameters_eq_error (hps : ctx.parameters = .error e) : ∃ op, e = .unknownOperator op := by
  cases ctx with
  | root id graph s => cases hps
  | frame id op s trail p =>
    have hmap : (p.graph.graph.get op).map Operator.parameters = .error e := hps
    cases hop : p.graph.graph.get op with
    | error e' => rw [hop] at hmap; cases hmap; exact ⟨op, Graph.get_eq_error hop⟩
    | ok operator => rw [hop] at hmap; cases hmap

/-- Why a resolution fails: an operator is not there, the parameter is not
declared, or its names lead in a circle. -/
theorem resolve_error_cases (hr : ctx.resolve parameter = .error e) :
    (∃ op, e = .unknownOperator op) ∨ e = .unknownParameter ctx.operatorName parameter ∨
      ∃ names, e = .aliasCycle parameter names := by
  unfold resolve at hr
  cases hps : ctx.parameters with
  | error e' => rw [hps] at hr; cases hr; exact .inl (parameters_eq_error hps)
  | ok ps =>
    rw [hps] at hr
    dsimp only at hr
    cases hp : ps.get? parameter with
    | none => rw [hp] at hr; cases hr; exact .inr (.inl rfl)
    | some p =>
      rw [hp] at hr
      rcases follow_error_cases hr with hcircle | hop
      · exact .inr (.inr hcircle)
      · exact .inl hop

/-! ## Three ways of asking -/

/-- A variable is handed out if one of the scopes is the nearest that has it,
and its item is of a type that is accepted. -/
theorem getVariable_eq_some_iff : (ctx.getVariable parameter h).1 = .ok (some i) ↔
    ∃ name default type s, ctx.resolve parameter = .ok (.variable name default type) ∧
      h.Nearest name ctx.scopes s i ∧ type.accepts (h.value i).type := by
  constructor
  · intro hi
    obtain ⟨r, hr⟩ := h.exists_refers ctx.scopes (ctx.resolve parameter)
    rw [hr.getVariable] at hi
    generalize ctx.resolve parameter = resolution at hr
    cases hr with
    | @bound name default type s j hn =>
      by_cases haccepts : type.accepts (h.value j).type
      · obtain rfl : j = i := by simpa [haccepts] using hi
        exact ⟨name, default, type, s, rfl, hn, haccepts⟩
      · simp [haccepts] at hi
    | refused => simp at hi
    | fixed => simp at hi
    | default => simp at hi
    | missing => simp at hi
  · intro ⟨name, default, type, s, hresolve, hn, haccepts⟩
    have hr : h.Refers ctx.scopes (ctx.resolve parameter) (.shared i type) :=
      hresolve ▸ .bound hn
    simp [hr.getVariable, haccepts]

/-- Whoever asks for a variable that is there, or just for an item, gets the same. -/
theorem get_of_getVariable (hi : (ctx.getVariable parameter h).1 = .ok (some i)) :
    ctx.getVariable parameter h = (.ok (some i), h) ∧ ctx.get parameter h = (.ok i, h) := by
  obtain ⟨name, default, type, s, hresolve, hn, haccepts⟩ := getVariable_eq_some_iff.mp hi
  have hr : h.Refers ctx.scopes (ctx.resolve parameter) (.shared i type) :=
    hresolve ▸ .bound hn
  simp [hr.getVariable, hr.get, haccepts]

/-- What is read depends on the items and, along the scopes of the frames, on
the bindings of the one name that the parameter stands for. -/
theorem get_congr (ctx : Context) (parameter : String) (hitems : h'.items = h.items)
    (hsame : ∀ name default type, ctx.resolve parameter = .ok (.variable name default type) →
      ∀ t ∈ ctx.scopes, h'.binding? t name = h.binding? t name) :
    (ctx.get parameter h').1 = (ctx.get parameter h).1 ∧
      (ctx.get parameter h').2.items = (ctx.get parameter h).2.items ∧
      (ctx.getVariable parameter h').1 = (ctx.getVariable parameter h).1 := by
  obtain ⟨r, hr⟩ := h.exists_refers ctx.scopes (ctx.resolve parameter)
  have hr' : h'.Refers ctx.scopes (ctx.resolve parameter) r := hr.congr hsame
  rw [hr.get, hr'.get, hr.getVariable, hr'.getVariable]
  obtain ⟨hanswer, hafter⟩ := r.get_of_items parameter hitems
  exact ⟨hanswer, hafter, r.getVariable_of_items parameter hitems⟩

/-- There is nothing to hand out if the name that the parameter stands for is
bound in none of the scopes, and no default has been met. -/
theorem get_eq_missing_iff : (ctx.get parameter h).1 = .error (.unknownVariable name) ↔
    ∃ type, ctx.resolve parameter = .ok (.variable name none type) ∧
      h.Unbound name ctx.scopes := by
  constructor
  · intro he
    obtain ⟨r, hr⟩ := h.exists_refers ctx.scopes (ctx.resolve parameter)
    rw [hr.get] at he
    have herror := @resolve_error_cases ctx parameter
    generalize ctx.resolve parameter = resolution at hr herror
    cases hr with
    | @refused e =>
      obtain rfl : e = .unknownVariable name := by simpa using he
      rcases herror rfl with ⟨op, he⟩ | he | ⟨names, he⟩ <;> cases he
    | fixed => simp only [Referent.get_declared] at he; split at he <;> cases he
    | bound hn => simp only [Referent.get_shared] at he; split at he <;> cases he
    | default hn => simp only [Referent.get_declared] at he; split at he <;> cases he
    | @missing _ type hn =>
      cases he
      exact ⟨type, rfl, hn⟩
  · intro ⟨type, hresolve, hn⟩
    have hr : h.Refers ctx.scopes (ctx.resolve parameter) (.missing name) :=
      hresolve ▸ .missing hn
    simp [hr.get]

/-- An item is refused if and only if the type declared for the parameter, at
which the resolution starts, does not accept it. -/
theorem get_eq_mismatch_iff {q : String} {expected found : ValueType} :
    (ctx.get parameter h).1 = .error (.typeMismatch q expected found) ↔
      ∃ p r i, ctx.declared? parameter = some p ∧
        h.Refers ctx.scopes (ctx.resolve parameter) r ∧ r.meant? = some (i, p.type) ∧
        p.type.accepts (h.value i).type = false ∧
        q = parameter ∧ expected = p.type ∧ found = (h.value i).type := by
  constructor
  · intro he
    obtain ⟨r, hr⟩ := h.exists_refers ctx.scopes (ctx.resolve parameter)
    rw [hr.get, Referent.get_eq_mismatch_iff] at he
    rcases he with rfl | ⟨i, hmeant, haccepts, rfl, rfl⟩
    · -- A resolution never fails for the type of a value.
      rcases resolve_error_cases hr.eq_error with ⟨op, he⟩ | he | ⟨names, he⟩ <;> cases he
    · obtain ⟨resolution, hresolve, hexpected⟩ := hr.expected hmeant
      obtain ⟨p, hp, htype⟩ := resolve_type hresolve
      obtain rfl : p.type = expected := htype.symm.trans hexpected
      exact ⟨p, r, i, hp, hr, hmeant, haccepts, rfl, rfl, rfl⟩
  · intro ⟨p, r, i, _, hr, hmeant, haccepts, hq, hexpected, hfound⟩
    rw [hr.get, Referent.get_eq_mismatch_iff]
    subst hexpected
    exact .inr ⟨i, hmeant, haccepts, hq, hfound⟩

/-- No way of asking fails for a circle of operators. -/
theorem get_ne_graphCycle {operator reason : String} :
    (ctx.get parameter h).1 ≠ .error (.graphCycle operator reason) := by
  intro he
  obtain ⟨r, hr⟩ := h.exists_refers ctx.scopes (ctx.resolve parameter)
  rw [hr.get] at he
  cases r with
  | refused e =>
    obtain rfl : e = .graphCycle operator reason := by simpa using he
    rcases resolve_error_cases hr.eq_error with ⟨op, he⟩ | he | ⟨names, he⟩ <;> cases he
  | declared i type => simp only [Referent.get_declared] at he; split at he <;> cases he
  | shared i type => simp only [Referent.get_shared] at he; split at he <;> cases he
  | missing name => simp at he

theorem typed_ne_graphCycle {α : Type} {as? : Value → Option α} {operator reason : String} :
    (ctx.typed parameter type as? h).1 ≠ .error (.graphCycle operator reason) := by
  have hget := @get_ne_graphCycle ctx h parameter operator reason
  unfold typed value
  simp only [Act.bind_apply, Act.see_apply]
  rcases hread : ctx.get parameter h with ⟨e | i, h'⟩
  · rw [hread] at hget
    exact fun he => hget (congrArg Except.error (Except.error.inj he))
  · dsimp only
    cases as? (h'.value i) with
    | none => exact nofun
    | some a => exact nofun

/-! ## Copies -/

/-- What is handed out though no variable is there is a copy of the value that
a declaration holds. -/
theorem exists_declared (hnone : (ctx.getVariable parameter h).1 = .ok none)
    (hget : ctx.get parameter h = (.ok j, h')) :
    ∃ i type, h.Refers ctx.scopes (ctx.resolve parameter) (.declared i type) ∧
      i ∈ ctx.graph.graph.held ∧ type.accepts (h.value i).type ∧ j = ⟨h.items.size⟩ ∧
      h' = (h.newItem (h.value i)).2 := by
  obtain ⟨r, hr⟩ := h.exists_refers ctx.scopes (ctx.resolve parameter)
  rw [hr.get] at hget
  rw [hr.getVariable] at hnone
  cases r with
  | shared i type => by_cases haccepts : type.accepts (h.value i).type <;> simp [haccepts] at hnone
  | missing name => simp at hget
  | refused e => simp at hget
  | declared i type =>
    refine ⟨i, type, hr, ?_, ?_⟩
    · have hheld := @resolve_ok_held ctx parameter
      generalize ctx.resolve parameter = resolution at hr hheld
      cases hr with
      | fixed => exact hheld rfl
      | default hn => exact hheld rfl i rfl
    · by_cases haccepts : type.accepts (h.value i).type
      · simp only [Referent.get_declared, haccepts, if_true, Prod.mk.injEq, Except.ok.injEq] at hget
        exact ⟨haccepts, hget.1.symm, hget.2.symm⟩
      · simp [haccepts] at hget

/-- Writing to a copy changes nothing that has been there before, so that the
next one to ask gets another copy with the value that is declared. -/
theorem get_again {v : Value} (hi : i.index < h.items.size)
    (hr : h.Refers ctx.scopes (ctx.resolve parameter) (.declared i type))
    (haccepts : type.accepts (h.value i).type) :
    ∃ again, ctx.get parameter ((h.newItem (h.value i)).2.setValue ⟨h.items.size⟩ v) =
        (.ok ⟨h.items.size + 1⟩, again) ∧ again.value ⟨h.items.size + 1⟩ = h.value i := by
  have hne : i ≠ ⟨h.items.size⟩ := by
    rw [ItemId.ne_iff]
    show i.index ≠ h.items.size
    omega
  generalize hwritten : (h.newItem (h.value i)).2.setValue ⟨h.items.size⟩ v = written
  have hscopes : written.scopes = h.scopes := by rw [← hwritten]; rfl
  have hsize : written.items.size = h.items.size + 1 := by
    rw [← hwritten]
    simp [Heap.setValue, Heap.newItem]
  have hvalue : written.value i = h.value i := by
    rw [← hwritten, Heap.value_setValue_ne hne, Heap.value_newItem_lt hi]
  have hr' : written.Refers ctx.scopes (ctx.resolve parameter) (.declared i type) :=
    hr.congr fun name _ _ _ t _ => Heap.binding?_scopes hscopes t name
  refine ⟨(written.newItem (written.value i)).2, ?_, ?_⟩
  · rw [hr'.get, Referent.get_declared, if_pos (hvalue.symm ▸ haccepts), hsize]
  · rw [← hsize, Heap.value_newItem_self, hvalue]

end Context

/-- Whatever is bound in some scope, or held by a declaration, has been made. -/
structure Heap.Backs (h : Heap) (held : List ItemId) : Prop where
  bound : ∀ s name i, h.binding? s name = some i → i.index < h.items.size
  held : ∀ i ∈ held, i.index < h.items.size

/-- **The ways of asking agree.** A variable is handed out, as the item that it
is bound to, exactly if a scope is the nearest of those of all frames that has
it and its item is of an accepted type; whoever asks for any item then gets
that one, and scopes that no frame is bound to do not matter. What is handed
out where no variable is there is a fresh copy of a declared value: a write to
it changes no variable and no declaration, and the next one to ask gets the
declared value again, in another copy. Asking for an item that need not be
there is answered with none exactly if the name that the parameter stands for
is bound nowhere along the scopes and no default has been met, which is where
just asking fails for want of a variable; every other failure stays one. And
just asking fails for a type exactly if the item meant is of one that the
parameter at the start does not accept. -/
theorem Context.readings_agree (ctx : Context) (parameter : String) (h : Heap) :
    ((∀ i, (ctx.getVariable parameter h).1 = .ok (some i) ↔
        ∃ name default type s, ctx.resolve parameter = .ok (.variable name default type) ∧
          h.Nearest name ctx.scopes s i ∧ type.accepts (h.value i).type) ∧
      (∀ i, (ctx.getVariable parameter h).1 = .ok (some i) →
        ctx.getVariable parameter h = (.ok (some i), h) ∧ ctx.get parameter h = (.ok i, h)) ∧
      ∀ t ∉ ctx.scopes, ∀ f,
        (ctx.get parameter (h.updateScope t f)).1 = (ctx.get parameter h).1 ∧
        (ctx.getVariable parameter (h.updateScope t f)).1 = (ctx.getVariable parameter h).1) ∧
    (∀ j h', h.Backs ctx.graph.graph.held → (ctx.getVariable parameter h).1 = .ok none →
      ctx.get parameter h = (.ok j, h') →
      (∀ s name, h'.binding? s name ≠ some j) ∧ j ∉ ctx.graph.graph.held ∧
      ∀ v, (h'.setValue j v).scopes = h.scopes ∧
        (∀ i, i.index < h.items.size → (h'.setValue j v).value i = h.value i) ∧
        ∃ k again, ctx.get parameter (h'.setValue j v) = (.ok k, again) ∧ k ≠ j ∧
          again.value k = h'.value j) ∧
    (((ctx.getOptional parameter h).1 = .ok none ↔
        ∃ name, (ctx.get parameter h).1 = .error (.unknownVariable name)) ∧
      (∀ name, (ctx.get parameter h).1 = .error (.unknownVariable name) ↔
        ∃ type, ctx.resolve parameter = .ok (.variable name none type) ∧
          h.Unbound name ctx.scopes) ∧
      (∀ e, (ctx.getOptional parameter h).1 = .error e ↔
        (ctx.get parameter h).1 = .error e ∧ ∀ name, e ≠ .unknownVariable name) ∧
      ∀ i, (ctx.getOptional parameter h).1 = .ok (some i) ↔ (ctx.get parameter h).1 = .ok i) ∧
    ∀ q expected found, (ctx.get parameter h).1 = .error (.typeMismatch q expected found) ↔
      ∃ p r i, ctx.declared? parameter = some p ∧
        h.Refers ctx.scopes (ctx.resolve parameter) r ∧ r.meant? = some (i, p.type) ∧
        p.type.accepts (h.value i).type = false ∧
        q = parameter ∧ expected = p.type ∧ found = (h.value i).type := by
  refine ⟨⟨fun i => getVariable_eq_some_iff, fun i => get_of_getVariable, ?_⟩, ?_, ?_,
    fun q expected found => get_eq_mismatch_iff⟩
  · intro t ht f
    have hsame : ∀ name, ∀ u ∈ ctx.scopes, (h.updateScope t f).binding? u name = h.binding? u name := by
      intro name u hu
      have hne : u ≠ t := fun heq => ht (heq ▸ hu)
      rw [Heap.binding?, Heap.binding?, Heap.scope_updateScope_ne hne]
    have hitems : (h.updateScope t f).items = h.items := rfl
    obtain ⟨hget, -, hvariable⟩ := ctx.get_congr parameter hitems fun name _ _ _ => hsame name
    exact ⟨hget, hvariable⟩
  · intro j h' hbacks hnone hget
    obtain ⟨i, type, hr, hheld, haccepts, rfl, rfl⟩ := exists_declared hnone hget
    have hi := hbacks.held i hheld
    refine ⟨?_, ?_, ?_⟩
    · intro s name hs
      have hlt := hbacks.bound s name _ hs
      exact Nat.lt_irrefl _ hlt
    · intro hmem
      exact Nat.lt_irrefl _ (hbacks.held _ hmem)
    · intro v
      refine ⟨rfl, ?_, ?_⟩
      · intro k hk
        have hne : k ≠ ⟨h.items.size⟩ := by
          rw [ItemId.ne_iff]
          exact Nat.ne_of_lt hk
        rw [Heap.value_setValue_ne hne, Heap.value_newItem_lt hk]
      · obtain ⟨again, hagain, hvalue⟩ := get_again (v := v) hi hr haccepts
        refine ⟨_, again, hagain, ?_, ?_⟩
        · simp
        · rw [hvalue, Heap.value_newItem_self]
  · rw [getOptional_eq]
    refine ⟨?_, fun name => get_eq_missing_iff, ?_, ?_⟩
    · rcases ctx.get parameter h with ⟨e | i, h'⟩
      · cases e <;> simp
      · simp
    · intro e
      rcases ctx.get parameter h with ⟨e' | i, h'⟩
      · cases e' <;> simp <;> grind
      · simp
    · intro i
      rcases ctx.get parameter h with ⟨e | i', h'⟩
      · cases e <;> simp
      · simp

namespace Sample

/-- An operator that looks `Value` up as `Cell`; both its parameters have the
first item as their default. -/
def probeGraph : SharedGraph :=
  ⟨⟨0⟩, ⟨"Probe", .empty,
    #[⟨"Look", ⟨[{ Parameter.lookup "Value" .int with actual := "Cell", default := some ⟨0⟩ },
      { Parameter.lookup "Spare" .int with default := some ⟨0⟩ }]⟩, none, .empty⟩], some ⟨0⟩⟩⟩

/-- Two frames on the second scope, over a graph frame on the first. -/
def probeContext : Context :=
  .frame ⟨2⟩ ⟨0⟩ ⟨1⟩ [⟨0⟩] (.frame ⟨1⟩ ⟨0⟩ ⟨1⟩ [⟨0⟩] (.root ⟨0⟩ probeGraph ⟨0⟩))

/-- The first scope binds `Cell`, the second nothing. -/
def probeHeap : Heap :=
  ⟨#[.int 5, .int 8], #[⟨"Global", ⟨[("Cell", ⟨1⟩)]⟩, [⟨1⟩], none⟩, ⟨"0", .empty, [], some ⟨0⟩⟩], 3, 1⟩

theorem probeHeap_backs : probeHeap.Backs probeContext.graph.graph.held where
  bound := by
    intro s name i hs
    match s, hs with
    | ⟨0⟩, hs =>
      have hentry : (if "Cell" = name then some (ItemId.mk 1) else none) = some i := hs
      split at hentry
      · cases hentry
        decide
      · cases hentry
    | ⟨1⟩, hs => cases hs
    | ⟨n + 2⟩, hs =>
      rw [Heap.binding?, Heap.scope_of_le (by show 2 ≤ n + 2; omega)] at hs
      cases hs
  held := by
    intro i hi
    have hzero : i = ⟨0⟩ := by
      have hheld : probeContext.graph.graph.held = [⟨0⟩, ⟨0⟩] := by rfl
      rw [hheld] at hi
      simpa using hi
    rw [hzero]
    decide

/-- `Value` is read from the first scope; `Spare`, which is bound nowhere, is
read as a copy of its default, and as another one after a write. -/
theorem readings_agree_probe :
    (probeContext.getVariable "Value" probeHeap).1 = .ok (some ⟨1⟩) ∧
      probeContext.get "Value" probeHeap = (.ok ⟨1⟩, probeHeap) ∧
      (probeContext.getVariable "Spare" probeHeap).1 = .ok none ∧
      ∀ v, ∃ k again, probeContext.get "Spare"
          ((probeHeap.newItem (.int 5)).2.setValue ⟨2⟩ v) = (.ok k, again) ∧
        k ≠ ⟨2⟩ ∧ again.value k = .int 5 := by
  have hvalue : (probeContext.getVariable "Value" probeHeap).1 = .ok (some ⟨1⟩) := by rfl
  have hspare : (probeContext.getVariable "Spare" probeHeap).1 = .ok none := by rfl
  have hcopy : probeContext.get "Spare" probeHeap =
      (.ok ⟨2⟩, (probeHeap.newItem (.int 5)).2) := by rfl
  have hread := Context.readings_agree probeContext "Value" probeHeap
  have hdefault := Context.readings_agree probeContext "Spare" probeHeap
  refine ⟨hvalue, (hread.1.2.1 ⟨1⟩ hvalue).2, hspare, fun v => ?_⟩
  exact ((hdefault.2.1 ⟨2⟩ _ probeHeap_backs hspare hcopy).2.2 v).2.2

end Sample

end ScopeFlow
