import ScopeFlow.Proofs.Drain.Composites
import ScopeFlow.Proofs.Engine.Fresh
import ScopeFlow.Proofs.Graph.Reachable

/-!
# Chains of successors

Operators that do nothing are executed along their successors, until there is
none or the chain comes back.

* `Graph.chainAt?` goes along the successors of an operator, and
  `Graph.Opening` is a beginning of the chain in which no operator comes twice,
  as the trail of a context is;
* `DrainSetting.chain_ends` goes along the chain, by induction on the operators
  that the trail does not list;
* `Engine.empty_chain_runs` reads off what `start` answers.
-/

namespace ScopeFlow

namespace Graph

/-- The successor of an operator, if it has one. -/
def successor? (g : Graph) (id : OperatorId) : Option OperatorId :=
  (g.get? id).bind Operator.successor

/-- Where so many successors one after another lead, if there are that many. -/
def chainAt? (g : Graph) (start : OperatorId) : Nat → Option OperatorId
  | 0 => some start
  | n + 1 => (g.chainAt? start n).bind g.successor?

/-- A beginning of a chain of successors, in which no operator comes twice. -/
structure Opening (g : Graph) (start : OperatorId) (ids : List OperatorId) : Prop where
  nodup : ids.Nodup
  inOrder : ∀ {n id}, ids[n]? = some id → g.chainAt? start n = some id

/-- All that a chain of successors comes to, in order. -/
structure ChainOf (g : Graph) (start : OperatorId) (ids : List OperatorId) : Prop
    extends g.Opening start ids where
  all : ∀ {n id}, g.chainAt? start n = some id → id ∈ ids

variable {g : Graph} {start id next : OperatorId} {ids : List OperatorId} {n : Nat}

theorem opening_start (g : Graph) (start : OperatorId) : g.Opening start [start] where
  nodup := List.nodup_singleton start
  inOrder := by
    intro n id hid
    cases n with
    | zero => exact hid
    | succ n => cases hid

namespace Opening

variable (ho : g.Opening start ids)
include ho

/-- The chain goes on from an operator of the opening to its successor. -/
theorem chainAt?_succ (hid : ids[n]? = some id) : g.chainAt? start (n + 1) = g.successor? id := by
  rw [chainAt?, ho.inOrder hid]
  rfl

theorem chainAt?_length (hlast : ids.getLast? = some id) :
    g.chainAt? start ids.length = g.successor? id := by
  obtain ⟨init, rfl⟩ := List.getLast?_eq_some_iff.mp hlast
  rw [List.length_append, List.length_singleton]
  exact ho.chainAt?_succ List.getElem?_concat_length

/-- The opening goes on with a successor that it does not have. -/
theorem hop (hlast : ids.getLast? = some id) (hnext : g.successor? id = some next)
    (hnew : next ∉ ids) : g.Opening start (ids ++ [next]) where
  nodup := by
    rw [List.nodup_append]
    refine ⟨ho.nodup, List.nodup_singleton next, fun a ha b hb => ?_⟩
    rintro rfl
    exact hnew (List.mem_singleton.mp hb ▸ ha)
  inOrder := by
    intro n other hother
    rcases Nat.lt_trichotomy n ids.length with hlt | rfl | hgt
    · rw [List.getElem?_append_left hlt] at hother
      exact ho.inOrder hother
    · rw [List.getElem?_concat_length] at hother
      rw [ho.chainAt?_length hlast, hnext, hother]
    · rw [List.getElem?_eq_none (by rw [List.length_append]; exact hgt)] at hother
      cases hother

/-- Where the chain ends after an opening or comes back to it, it comes to nothing
else. -/
theorem chainAt?_cases (hne : ids ≠ [])
    (hback : ∀ again, g.chainAt? start ids.length = some again → again ∈ ids) (n : Nat) :
    g.chainAt? start n = g.chainAt? start ids.length ∨
      ∃ a ∈ ids, g.chainAt? start n = some a := by
  have hgoes : ∀ {n a}, a ∈ ids → g.chainAt? start n = some a →
      g.chainAt? start (n + 1) = g.chainAt? start ids.length ∨
        ∃ b ∈ ids, g.chainAt? start (n + 1) = some b := by
    intro n a ha hn
    obtain ⟨m, hm⟩ := List.mem_iff_getElem?.mp ha
    have hsame : g.chainAt? start (n + 1) = g.chainAt? start (m + 1) := by
      rw [chainAt?, hn, ho.chainAt?_succ hm]
      rfl
    have hle : m + 1 ≤ ids.length := (List.getElem?_eq_some_iff.mp hm).1
    rw [hsame]
    rcases hle.lt_or_eq with hlt | heq
    · exact .inr ⟨_, List.getElem_mem hlt, ho.inOrder (List.getElem?_eq_getElem hlt)⟩
    · exact .inl (congrArg _ heq)
  induction n with
  | zero =>
    have hpos : 0 < ids.length := List.length_pos_of_ne_nil hne
    exact .inr ⟨_, List.getElem_mem hpos, ho.inOrder (List.getElem?_eq_getElem hpos)⟩
  | succ n ih =>
    rcases ih with hend | ⟨a, ha, hn⟩
    · cases hlength : g.chainAt? start ids.length with
      | none => exact .inl (by rw [chainAt?, hend, hlength]; rfl)
      | some again =>
        rw [← hlength]
        exact hgoes (hback again hlength) (hend.trans hlength)
    · exact hgoes ha hn

theorem chainOf (hne : ids ≠ [])
    (hback : ∀ again, g.chainAt? start ids.length = some again → again ∈ ids) :
    g.ChainOf start ids :=
  { ho with
    all := by
      intro n a hn
      rcases ho.chainAt?_cases hne hback n with hend | ⟨b, hb, hn'⟩
      · exact hback a (hend.symm.trans hn)
      · obtain rfl := Option.some.inj (hn'.symm.trans hn)
        exact hb }

/-- A chain that comes back goes on for ever. -/
theorem chainAt?_ne_none {again : OperatorId} (hagain : g.chainAt? start ids.length = some again)
    (hseen : again ∈ ids) (n : Nat) : g.chainAt? start n ≠ none := by
  have hback : ∀ b, g.chainAt? start ids.length = some b → b ∈ ids := fun b hb =>
    Option.some.inj (hagain.symm.trans hb) ▸ hseen
  rcases ho.chainAt?_cases (List.ne_nil_of_mem hseen) hback n with hend | ⟨a, -, ha⟩
  · rw [hend, hagain]
    exact nofun
  · rw [ha]
    exact nofun

/-- A graph has no longer openings than operators. -/
theorem length_le (hknown : ∀ id ∈ ids, g.has id = true) : ids.length ≤ g.size := by
  have hnodup : (ids.map OperatorId.index).Nodup :=
    ho.nodup.map fun a b hab => congrArg OperatorId.mk hab
  have hsub : ids.map OperatorId.index ⊆ List.range g.size := by
    intro k hk
    obtain ⟨id, hid, rfl⟩ := List.mem_map.mp hk
    obtain ⟨op, hop⟩ := has_iff.mp (hknown id hid)
    exact List.mem_range.mpr (index_lt_of_get? hop)
  have hle := (List.subperm_of_subset hnodup hsub).length_le
  rwa [List.length_map, List.length_range] at hle

end Opening

/-- There is one list of all that a chain comes to. -/
theorem ChainOf.unique {ids' : List OperatorId} (h : g.ChainOf start ids)
    (h' : g.ChainOf start ids') : ids = ids' := by
  have hmem : ∀ {l : List OperatorId}, g.ChainOf start l →
      ∀ a, a ∈ l ↔ ∃ n, g.chainAt? start n = some a := by
    intro l hl a
    refine ⟨fun ha => ?_, fun ⟨n, hn⟩ => hl.all hn⟩
    obtain ⟨n, hn⟩ := List.mem_iff_getElem?.mp ha
    exact ⟨n, hl.inOrder hn⟩
  have hperm : ids.Perm ids' := (List.perm_ext_iff_of_nodup h.nodup h'.nodup).mpr fun a =>
    (hmem h a).trans (hmem h' a).symm
  refine List.ext_getElem hperm.length_eq fun n hn hn' => ?_
  have hat := h.inOrder (List.getElem?_eq_getElem hn)
  rw [h'.inOrder (List.getElem?_eq_getElem hn')] at hat
  exact (Option.some.inj hat).symm

end Graph

/-! ## The drain of a chain -/

/-- How a drain ends that has gone along a chain, the last time in a context:
with all operators executed, or at the last one, over the operator that the chain
comes back to. -/
inductive ChainEnd (g : Graph) (start : OperatorId) (ids : List OperatorId) (c : Context) :
    Drained → Prop
  | out {q : Progress} (unlinked : g.chainAt? start ids.length = none)
      (count : q.executed = ids.length) : ChainEnd g start ids c ⟨.ended none, [], q⟩
  | back {again : OperatorId} {op : Operator} {q : Progress}
      (linked : g.chainAt? start ids.length = some again) (seen : again ∈ ids)
      (found : g.get? again = some op) (count : q.executed + 1 = ids.length) :
      ChainEnd g start ids c
        ⟨.failed (.graphCycle op.name "successor chain revisits this operator"), [.atomic c], q⟩

/-- A context on a chain: its trail lists the chain up to its operator. -/
structure Context.OnChain (c : Context) (start : OperatorId) (s : ScopeId) (P : Context) :
    Prop where
  operatorId? : c.operatorId? = c.trail.getLast?
  scope : c.scope = s
  parent? : c.parent? = some P
  opening : P.graph.graph.Opening start c.trail

namespace Context.OnChain

variable {c P : Context} {start id next : OperatorId} {s : ScopeId}

theorem frame (hc : c.OnChain start s P) :
    ∃ n id, c = .frame n id s c.trail P ∧ c.trail.getLast? = some id := by
  obtain ⟨hlast, hscope, hparent, -⟩ := hc
  cases c with
  | root n g s => cases hparent
  | frame n id s' ids P' =>
    cases hparent
    cases hscope
    exact ⟨n, id, rfl, hlast.symm⟩

theorem depth (hc : c.OnChain start s P) : c.depth = P.depth + 1 := by
  obtain ⟨n, id, hframe, -⟩ := hc.frame
  rw [hframe]
  rfl

theorem graph (hc : c.OnChain start s P) : c.graph = P.graph := by
  obtain ⟨n, id, hframe, -⟩ := hc.frame
  rw [hframe]
  rfl

/-- It binds the last operator of its trail. -/
theorem binds (hc : c.OnChain start s P) (hknown : ∀ a ∈ c.trail, P.graph.graph.has a = true) :
    ∃ id op, c.trail.getLast? = some id ∧ P.graph.graph.get? id = some op ∧
      c.operator = .ok op := by
  obtain ⟨n, id, hframe, hlast⟩ := hc.frame
  obtain ⟨op, hop⟩ := Graph.has_iff.mp (hknown id (List.mem_of_getLast? hlast))
  refine ⟨id, op, hlast, hop, ?_⟩
  rw [hframe]
  show P.graph.graph.get id = .ok op
  rw [Graph.get, hop]

/-- A successor that is not on the trail is the next one on the chain. -/
theorem hop (hc : c.OnChain start s P) (hlast : c.trail.getLast? = some id)
    (hnext : P.graph.graph.successor? id = some next) (hnew : next ∉ c.trail) (n : ContextId) :
    (c.sibling next (c.trail ++ [next]) n).trail = c.trail ++ [next] ∧
      (c.sibling next (c.trail ++ [next]) n).OnChain start s P := by
  obtain ⟨m, own, hframe, -⟩ := hc.frame
  rw [hframe]
  exact ⟨rfl, List.getLast?_concat.symm, rfl, rfl, hc.opening.hop hlast hnext hnew⟩

end Context.OnChain

/-- An operator that does nothing goes on to its successor. -/
theorem Operator.work_empty {op : Operator} (hempty : op.kind = .empty) (cancelled : Bool)
    (c : Context) : op.work cancelled c = c.successor := by
  unfold Operator.work
  rw [hempty]

/-- A successor that is on the trail is refused. -/
theorem Context.successor_revisits {c : Context} {op next : Operator} {id : OperatorId} {h : Heap}
    (hop : c.operator = .ok op) (hid : op.successor = some id) (hseen : id ∈ c.trail)
    (hnext : c.graph.graph.get? id = some next) : c.successor h =
      (.error (.graphCycle next.name "successor chain revisits this operator"), h) := by
  have hget : c.graph.graph.get id = .ok next := by rw [Graph.get, hnext]
  rw [successor, Act.bind_apply, Act.ofExcept_apply, hop]
  dsimp only
  rw [hid]
  dsimp only
  rw [if_pos hseen, Act.bind_apply, Act.ofExcept_apply, hget]
  rfl

namespace DrainSetting

variable {r : DrainSetting} {P c : Context} {start : OperatorId} {s : ScopeId} {p : Progress}
  {op : Operator}

/-- What a drain does with an operator that does nothing, alone on the stack: it
executes it and is through, or comes to its successor, or fails over one that is
on the trail. -/
inductive ChainStep (r : DrainSetting) (c : Context) (op : Operator) (p : Progress) : Prop
  | out {h : Heap} : op.successor = none →
      r.Leads [.atomic c] p [(c, p.worked h)] [] (p.worked h) → ChainStep r c op p
  | hop {next : OperatorId} {n : ContextId} {h : Heap} : op.successor = some next →
      next ∉ c.trail → r.Leads [.atomic c] p [(c, p.worked h)]
        [.atomic (c.sibling next (c.trail ++ [next]) n)] (p.worked h) → ChainStep r c op p
  | back {again : OperatorId} {found : Operator} : op.successor = some again →
      again ∈ c.trail → c.graph.graph.get? again = some found →
      (∃ w, r.Ends none [.atomic c] p
        [(c, p.fall (.graphCycle found.name "successor chain revisits this operator") w)]
        ⟨.failed (.graphCycle found.name "successor chain revisits this operator"), [.atomic c],
          p.fall (.graphCycle found.name "successor chain revisits this operator") w⟩) →
      ChainStep r c op p

theorem chainStep (he : r.Enters c 0 p) (hop : c.operator = .ok op) (hempty : op.kind = .empty)
    (hknown : ∀ next, op.successor = some next → c.graph.graph.has next = true) :
    r.ChainStep c op p := by
  have hbuiltIn : op.kind.isBuiltIn = true := by rw [hempty]; rfl
  have hleads : (∀ s ∈ op.successor, s ∉ c.trail) → ∃ n h, r.Leads [.atomic c] p [(c, p.worked h)]
      ((c.following op n).map .atomic) (p.worked h) := by
    intro hnew
    have hwork := Context.successor_eq (h := p.world.heap) hop hnew
    rw [← op.work_empty hempty (p.world.isCancelled (p.world.token r.control))] at hwork
    have hnone : r.Enters c ([] : List Operation).length p := he
    have hleads := Leads.of_work hnone hop hbuiltIn hwork
    rw [List.append_nil] at hleads
    exact ⟨_, _, hleads⟩
  unfold Context.following at hleads
  cases hnext : op.successor with
  | none =>
    rw [hnext] at hleads
    obtain ⟨n, h, hleads⟩ := hleads nofun
    exact .out hnext hleads
  | some next =>
    by_cases hseen : next ∈ c.trail
    · obtain ⟨found, hfound⟩ := Graph.has_iff.mp (hknown next hnext)
      refine .back hnext hseen hfound ⟨p.world, ?_⟩
      refine (ends_error (move_eq_perform.mpr ⟨he.unhalted, rfl⟩) ?_).mpr ⟨rfl, rfl⟩
      show r.execute c 0 p.world = _
      rw [he.execute hop hbuiltIn, World.onHeap_apply, op.work_empty hempty,
        Context.successor_revisits hop hnext hseen hfound]
    · rw [hnext] at hleads
      obtain ⟨n, h, hleads⟩ := hleads fun s hs => Option.some.inj hs ▸ hseen
      exact .hop hnext hseen hleads

/-- A chain of operators that do nothing is executed in order, from any context
on that has come along it. The induction is on how many operators its trail does
not list. -/
theorem chain_ends (hstack : 1 ≤ r.config.maxStackDepth)
    (hdepth : P.depth + 1 ≤ r.config.maxContextDepth)
    (hclosed : ∀ a b, P.graph.graph.successor? a = some b → P.graph.graph.has b = true)
    (hempty : ∀ a op, P.graph.graph.get? a = some op → op.kind = .empty)
    (hc : c.OnChain start s P) (hknown : ∀ a ∈ c.trail, P.graph.graph.has a = true)
    (hdue : r.halts? p = none) (hcount : p.executed + 1 = c.trail.length) :
    ∃ l d c', r.Ends none [.atomic c] p l d ∧ c'.OnChain start s P ∧
      P.graph.graph.ChainOf start c'.trail ∧
      c.trail.dropLast.map some ++ l.map (fun deed => deed.1.operatorId?) = c'.trail.map some ∧
      (l.map Prod.fst).getLast? = some c' ∧ ChainEnd P.graph.graph start c'.trail c' d := by
  induction hleft : P.graph.graph.size - c.trail.length using Nat.strong_induction_on
    generalizing c p with
  | _ k ih =>
    subst hleft
    obtain ⟨id, op, hlast, hop, hoperator⟩ := hc.binds hknown
    have hsucc : P.graph.graph.successor? id = op.successor := by rw [Graph.successor?, hop]; rfl
    have hat : P.graph.graph.chainAt? start c.trail.length = op.successor :=
      (hc.opening.chainAt?_length hlast).trans hsucc
    have hne : c.trail ≠ [] := List.ne_nil_of_mem (List.mem_of_getLast? hlast)
    have he : r.Enters c 0 p := ⟨hdue, hstack, hc.depth ▸ hdepth⟩
    have hown : c.trail.dropLast.map some ++ [c.operatorId?] = c.trail.map some := by
      obtain ⟨init, hinit⟩ := List.getLast?_eq_some_iff.mp hlast
      rw [hc.operatorId?, hlast, hinit, List.dropLast_concat, List.map_append]
      rfl
    cases chainStep he hoperator (hempty id op hop) fun next hnext =>
        hc.graph ▸ hclosed id next (hsucc.trans hnext) with
    | @out h hnone hleads =>
      refine ⟨[(c, p.worked h)], _, c, (hleads.ends _ _).mpr ⟨[], rfl, ends_nil.mpr ⟨rfl, rfl⟩⟩, hc,
        hc.opening.chainOf hne ?_, hown, rfl, .out (hat.trans hnone) hcount⟩
      rw [hat, hnone]
      exact nofun
    | @back again found hagain hseen hfound hends =>
      -- The operator at hand has failed, and is what is left on the stack.
      obtain ⟨w, hends⟩ := hends
      refine ⟨_, _, c, hends, hc, hc.opening.chainOf hne fun b hb => ?_, hown, rfl,
        .back (hat.trans hagain) hseen (hc.graph ▸ hfound) hcount⟩
      rw [hat, hagain] at hb
      exact Option.some.inj hb ▸ hseen
    | @hop next n h hnext hnew hleads =>
      -- The trail lists one more, and what it lists is an opening again.
      obtain ⟨htrail, hc'⟩ := hc.hop hlast (hsucc.trans hnext) hnew n
      have hknown' : ∀ a ∈ c.trail ++ [next], P.graph.graph.has a = true :=
        List.forall_mem_append.mpr ⟨hknown, List.forall_mem_singleton.mpr
          (hclosed id next (hsucc.trans hnext))⟩
      rw [← htrail] at hknown'
      have hlength := congrArg List.length htrail
      rw [List.length_append, List.length_singleton] at hlength
      have hle := hc'.opening.length_le hknown'
      have hcount' : (p.worked h).executed + 1 = c.trail.length + 1 := congrArg (· + 1) hcount
      obtain ⟨l, d, c', hends, hon, hall, hids, hlast', hend⟩ :=
        ih _ (by omega) hc' hknown' (halts?_worked.trans hdue) (hcount'.trans hlength.symm) rfl
      refine ⟨(c, p.worked h) :: l, d, c', (hleads.ends _ _).mpr ⟨l, rfl, hends⟩, hon, hall, ?_, ?_,
        hend⟩
      · rw [htrail, List.dropLast_concat, ← hown, List.append_assoc] at hids
        exact hids
      · rw [List.map_cons, List.getLast?_cons, hlast']
        rfl

end DrainSetting

/-! ## The start -/

/-- A reference to a successor is among those that are checked. -/
theorem Graph.has_of_successor {g : Graph} {h : Heap} {a b : OperatorId}
    (hvalid : g.validate h = .ok ()) (hab : g.successor? a = some b) : g.has b = true := by
  obtain ⟨op, hop, hb⟩ := Option.bind_eq_some_iff.mp hab
  refine has_of_refers hvalid ⟨op, hop, List.mem_append_left _ (List.mem_append_left _ ?_)⟩
  exact Option.mem_toList.mpr hb

namespace Engine

variable {config : Config} {g : SharedGraph} {w₀ : World} {start : OperatorId}

/-- **Chains.** On a graph of operators that do nothing, the first start executes
what the chain of successors of the initial operator comes to, each operator once
and in order. It stops exactly if the chain ends, with nothing left to do. If the
chain goes on for ever, the last operator before the chain comes back fails, over
the operator that it comes back to, and is all that is left to do. -/
theorem empty_chain_runs (hconfig : config.fault? = none) (s : ScopeId)
    (hvalid : g.graph.validate w₀.heap = .ok ()) (hinitial : g.graph.initial = some start)
    (hempty : ∀ id op, g.graph.get? id = some op → op.kind = .empty) :
    ∃ e₀ w₁ e w events fuel reply deeds d ids,
      create config w₀ = (.ok e₀, w₁) ∧ e₀.prepare g s w₁ = ⟨.ok (), e, w, events⟩ ∧
      e.start fuel w = some reply ∧ reply = e.afterDrain d ∧
      e.setting.Ends none e.continuation ⟨w, e.executed, false⟩ deeds d ∧
      g.graph.ChainOf start ids ∧ deeds.map (fun deed => deed.1.operatorId?) = ids.map some ∧
      (reply.result = .ok .stopped ↔ ∃ n, g.graph.chainAt? start n = none) ∧
      (reply.result = .ok .stopped → reply.engine.state = .stopped ∧
        reply.engine.executed = ids.length ∧ reply.engine.continuation = []) ∧
      ((∀ n, g.graph.chainAt? start n ≠ none) → ∃ again op ctx,
        g.graph.chainAt? start ids.length = some again ∧ again ∈ ids ∧
        g.graph.get? again = some op ∧
        reply.result =
          .error (.graphCycle op.name "successor chain revisits this operator") ∧
        reply.engine.state = .faulted ∧ reply.engine.executed + 1 = ids.length ∧
        reply.engine.continuation = [.atomic ctx] ∧ (deeds.map Prod.fst).getLast? = some ctx ∧
        ctx.operatorId? = ids.getLast? ∧ ctx.scope = s) := by
  obtain ⟨e₀, w₁, e, w, events, hcreate, hprep, he⟩ := prepared_atStart hconfig s hvalid hinitial
  obtain ⟨hstack, hdepth⟩ := Config.bounds_of_fault? hconfig
  have hsetting : e.setting.config = config := he.config
  have hfirst : (firstContext g start s w₀.heap).OnChain start s (.root ⟨w₀.heap.contexts⟩ g s) :=
    ⟨rfl, rfl, rfl, g.graph.opening_start start⟩
  have hknown : ∀ a ∈ [start], g.graph.has a = true :=
    List.forall_mem_singleton.mpr (Graph.has_of_initial hvalid hinitial)
  obtain ⟨deeds, d, ctx, hends, hctx, hall, hids, hlast, hend⟩ :=
    DrainSetting.chain_ends (P := .root ⟨w₀.heap.contexts⟩ g s) (hsetting ▸ hstack)
      (hsetting ▸ hdepth) (fun a b => Graph.has_of_successor hvalid) hempty hfirst hknown
      he.unhalted (congrArg (· + 1) he.executed)
  rw [← he.continuation] at hends
  obtain ⟨fuel, hstart⟩ := he.start_of_ends hends
  refine ⟨e₀, w₁, e, w, events, fuel, _, deeds, d, ctx.trail, hcreate, hprep, hstart, rfl, hends,
    hall, hids, ?_⟩
  cases hend with
  | out hunlinked hcount =>
    exact ⟨⟨fun _ => ⟨_, hunlinked⟩, fun _ => rfl⟩, fun _ => ⟨rfl, hcount, rfl⟩,
      fun hforever => absurd hunlinked (hforever _)⟩
  | back hlinked hseen hfound hcount =>
    have hforever := hall.chainAt?_ne_none hlinked hseen
    exact ⟨⟨nofun, fun ⟨n, hn⟩ => absurd hn (hforever n)⟩, nofun, fun _ => ⟨_, _, ctx, hlinked,
      hseen, hfound, rfl, rfl, hcount, rfl, hlast, hctx.operatorId?, hctx.scope⟩⟩

end Engine

namespace Sample

/-- One chain that comes back to its second operator, and one of two operators
that ends. -/
def rho (initial : OperatorId) : SharedGraph :=
  ⟨⟨0⟩, ⟨"Rho", .empty, #[⟨"Lead", .empty, some ⟨1⟩, .empty⟩, ⟨"Turn", .empty, some ⟨2⟩, .empty⟩,
    ⟨"Back", .empty, some ⟨1⟩, .empty⟩, ⟨"Aside", .empty, some ⟨4⟩, .empty⟩,
    ⟨"Last", .empty, none, .empty⟩], some initial⟩⟩

theorem rho_empty {initial id : OperatorId} {op : Operator}
    (hop : (rho initial).graph.get? id = some op) : op.kind = .empty := by
  have hall : ∀ x ∈ (rho initial).graph.operators.toList, x.kind = .empty := by
    simp [rho]
  exact hall op (Array.mem_toList_iff.mpr (Array.mem_of_getElem? hop))

theorem rho_chain : (rho ⟨0⟩).graph.ChainOf ⟨0⟩ [⟨0⟩, ⟨1⟩, ⟨2⟩] := by
  have ho : (rho ⟨0⟩).graph.Opening ⟨0⟩ [⟨0⟩, ⟨1⟩, ⟨2⟩] :=
    (((rho ⟨0⟩).graph.opening_start ⟨0⟩).hop rfl rfl (by decide)).hop rfl rfl (by decide)
  exact ho.chainOf nofun fun again hagain => by
    cases hagain
    decide

/-- The first chain faults when it comes back, with two operators executed, and the
second one stops. -/
theorem empty_chain_runs_rho :
    Config.standard.fault? = none ∧ Config.sequential.fault? = none ∧
      (rho ⟨0⟩).graph.validate .empty = .ok () ∧ (rho ⟨3⟩).graph.validate .empty = .ok () ∧
      (∃ e fuel, ∃ w : World, ∃ reply : Reply RunState, Engine.start fuel e w = some reply ∧
        reply.result =
          .error (.graphCycle "Turn" "successor chain revisits this operator") ∧
        reply.engine.executed = 2) ∧
      ∃ e fuel, ∃ w : World, ∃ reply : Reply RunState, Engine.start fuel e w = some reply ∧
        reply.result = .ok .stopped := by
  have hstandard : Config.standard.fault? = none := rfl
  have hsequential : Config.sequential.fault? = none := rfl
  have hrho : (rho ⟨0⟩).graph.validate World.empty.heap = .ok () := by decide
  have haside : (rho ⟨3⟩).graph.validate World.empty.heap = .ok () := by decide
  obtain ⟨_, _, e, w, _, fuel, reply, _, _, ids, -, -, hstart, -, -, hall, -, -, -, hcycle⟩ :=
    Engine.empty_chain_runs hstandard ⟨0⟩ hrho rfl fun _ _ => rho_empty
  obtain ⟨_, _, e', w', _, fuel', reply', _, _, _, -, -, hstart', -, -, -, -, hstops, -, -⟩ :=
    Engine.empty_chain_runs hsequential ⟨0⟩ haside rfl fun _ _ => rho_empty
  obtain rfl := hall.unique rho_chain
  have hback : (rho ⟨0⟩).graph.chainAt? ⟨0⟩ 3 = some ⟨1⟩ := rfl
  obtain ⟨again, op, -, hagain, -, hop, hresult, -, hexecuted, -⟩ :=
    hcycle (rho_chain.chainAt?_ne_none hback (by decide))
  cases hagain
  cases hop
  exact ⟨hstandard, hsequential, hrho, haside,
    ⟨e, fuel, w, reply, hstart, hresult, Nat.succ.inj hexecuted⟩,
    e', fuel', w', reply', hstart', hstops.mpr ⟨2, rfl⟩⟩

end Sample

end ScopeFlow
