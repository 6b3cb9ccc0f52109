import ScopeFlow.Proofs.Operator.Variables

/-!
# Drawing from one stream

Whoever draws through a parameter goes on where the last one has stopped. That
is so although a default is only copied, since the copy becomes the variable
which the next one finds.

* `Random.Source.serve_append` and `Source.thread_serve` say that calls may be
  served all at once or in several turns;
* `Context.randomItem_of_shared`, `Context.randomItem_of_default` and
  `Context.randomItem_of_fixed` say which item is drawn from;
* `Context.withRandom_of_nearest`, `Context.withRandom_of_unbound` and
  `Context.withRandom_of_fixed` say what one turn does, `Context.drawEach` is
  many of them in a row;
* `Context.draws_continue` puts the three cases together.
-/

namespace ScopeFlow

/-! ## Sources -/

namespace Random.Source

variable {α : Type} {r : Source}

theorem serve_cons (r : Source) (c : Call) (cs : List Call) : r.serve (c :: cs) =
    ((r.answer c).1 :: ((r.answer c).2.serve cs).1, ((r.answer c).2.serve cs).2) := rfl

/-- Calls may be served in two turns. -/
theorem serve_append (r : Source) (cs ds : List Call) : r.serve (cs ++ ds) =
    ((r.serve cs).1 ++ ((r.serve cs).2.serve ds).1, ((r.serve cs).2.serve ds).2) := by
  induction cs generalizing r with
  | nil => rfl
  | cons c cs ih =>
    rw [List.cons_append, serve_cons, ih, serve_cons, List.cons_append]

/-- Several turns at one source, each of which hands on what it leaves. -/
def thread (r : Source) : List (Source → α × Source) → List α × Source
  | [] => ([], r)
  | f :: fs =>
    let (a, r') := f r
    let (as, r'') := r'.thread fs
    (a :: as, r'')

/-- Turns in which calls are served come to the calls served all at once. -/
theorem thread_serve (r : Source) (turns : List (List Call)) :
    (r.thread (turns.map fun cs r => r.serve cs)).1.flatten = (r.serve turns.flatten).1 ∧
      (r.thread (turns.map fun cs r => r.serve cs)).2 = (r.serve turns.flatten).2 := by
  induction turns generalizing r with
  | nil => exact ⟨rfl, rfl⟩
  | cons cs turns ih =>
    obtain ⟨hanswers, hreached⟩ := ih (r.serve cs).2
    rw [List.flatten_cons, serve_append]
    exact ⟨congrArg ((r.serve cs).1 ++ ·) hanswers, hreached⟩

end Random.Source

variable {α : Type} {ctx : Context} {h h' : Heap} {s : ScopeId} {i x : ItemId}
  {name parameter : String} {default : Option ItemId} {type : ValueType} {r : Random.Source}
  {f : Random.Source → α × Random.Source} {fs : List (Random.Source → α × Random.Source)}

namespace Context

/-! ## What is drawn from -/

/-- The item of a variable of an accepted type is taken as it is. -/
theorem randomItem_of_shared (hr : h.Refers ctx.scopes (ctx.resolve parameter) (.shared x type))
    (haccepts : type.accepts (h.value x).type) : ctx.randomItem parameter h = (.ok x, h) := by
  rw [randomItem, Act.bind_apply, hr.getVariable, Referent.getVariable_shared, if_pos haccepts]
  rfl

/-- A default of an accepted type becomes a variable, whatever its value. -/
theorem randomItem_of_default (hres : ctx.resolve parameter = .ok (.variable name (some i) type))
    (hn : h.Unbound name ctx.scopes) (haccepts : type.accepts (h.value i).type) :
    ctx.randomItem parameter h =
      (.ok ⟨h.items.size⟩, h.setVariable ctx.scope name (h.value i)) := by
  have hr : h.Refers ctx.scopes (ctx.resolve parameter) (.declared i type) := hres ▸ .default hn
  have hn' : (h.newItem (h.value i)).2.Unbound name ctx.scopes :=
    (Heap.Untouched.newItem _).unbound hn
  rw [randomItem, Act.bind_apply, hr.getVariable, Referent.getVariable_declared]
  dsimp only
  rw [Act.bind_apply, hr.get, Referent.get_declared, if_pos haccepts]
  dsimp only
  rw [Act.bind_apply, Act.attempt, setItem_of_variable hres, Heap.value_newItem_self,
    if_pos haccepts, target_of_unbound hn']
  rfl

/-- A fixed value of an accepted type is copied. -/
theorem randomItem_of_fixed (hres : ctx.resolve parameter = .ok (.fixed i type))
    (haccepts : type.accepts (h.value i).type) :
    ctx.randomItem parameter h = (.ok ⟨h.items.size⟩, (h.newItem (h.value i)).2) := by
  have hr : h.Refers ctx.scopes (ctx.resolve parameter) (.declared i type) := hres ▸ .fixed
  rw [randomItem, Act.bind_apply, hr.getVariable, Referent.getVariable_declared]
  dsimp only
  rw [Act.bind_apply, hr.get, Referent.get_declared, if_pos haccepts]
  dsimp only
  rw [Act.bind_apply, Act.attempt, setItem_of_fixed hres]
  rfl

/-! ## One turn -/

/-- What is drawn from is written back. -/
theorem withRandom_apply (hitem : ctx.randomItem parameter h = (.ok x, h'))
    (hv : h'.value x = .random r) (f : Random.Source → α × Random.Source) :
    ctx.withRandom parameter f h = (.ok (f r).1, h'.setValue x (.random (f r).2)) := by
  rw [withRandom, Act.bind_apply, hitem]
  dsimp only
  rw [Act.bind_apply, Act.see_apply, hv]
  rfl

/-- A variable is drawn from in place. -/
theorem withRandom_of_nearest (hres : ctx.resolve parameter = .ok (.variable name default .random))
    (hn : h.Nearest name ctx.scopes s x) (hv : h.value x = .random r)
    (f : Random.Source → α × Random.Source) :
    ∃ h', ctx.withRandom parameter f h = (.ok (f r).1, h') ∧
      h.Rewritten h' x (.random (f r).2) := by
  have hr : h.Refers ctx.scopes (ctx.resolve parameter) (.shared x .random) := hres ▸ .bound hn
  have hitem := randomItem_of_shared hr (by rw [hv]; rfl)
  exact ⟨_, withRandom_apply hitem hv f, .setValue (Heap.lt_of_value (by simp [hv]))⟩

/-- A default is copied to a variable, and the copy is drawn from. -/
theorem withRandom_of_unbound (hctx : ctx.Within h)
    (hres : ctx.resolve parameter = .ok (.variable name (some i) .random))
    (hn : h.Unbound name ctx.scopes) (hv : h.value i = .random r)
    (f : Random.Source → α × Random.Source) :
    ∃ h' x, ctx.withRandom parameter f h = (.ok (f r).1, h') ∧
      h.Gained h' ctx.scope name x (.random (f r).2) := by
  have hitem := randomItem_of_default hres hn (by rw [hv]; rfl)
  rw [hv] at hitem
  have hg : h.Gained (h.setVariable ctx.scope name (.random r)) ctx.scope name ⟨h.items.size⟩
      (.random r) := .setVariable (hctx _ ctx.scope_mem_scopeChain)
  refine ⟨_, ⟨h.items.size⟩, withRandom_apply hitem hg.holds f, hg.rewrite (.setValue ?_)⟩
  exact Heap.lt_of_value (by simp [hg.holds])

/-- Of a fixed source there is another copy each time. -/
theorem withRandom_of_fixed (hres : ctx.resolve parameter = .ok (.fixed i .random))
    (hv : h.value i = .random r) (f : Random.Source → α × Random.Source) :
    ∃ h', ctx.withRandom parameter f h = (.ok (f r).1, h') ∧ h.Untouched h' := by
  have hitem := randomItem_of_fixed hres (by rw [hv]; rfl)
  rw [hv] at hitem
  refine ⟨_, withRandom_apply hitem Heap.value_newItem_self f, ⟨?_, fun {j} hj => ?_⟩, rfl⟩
  · simp [Heap.setValue, Heap.newItem]
  · rw [Heap.value_setValue_ne (Heap.ne_fresh hj), Heap.value_newItem_lt hj]

/-! ## Turns in a row -/

/-- Draws through a parameter in many turns. -/
def drawEach (ctx : Context) (parameter : String) :
    List (Random.Source → α × Random.Source) → Act Heap (List α)
  | [] => pure []
  | f :: fs => do
    let a ← ctx.withRandom parameter f
    let as ← ctx.drawEach parameter fs
    pure (a :: as)

/-- The first turn and the others. -/
theorem drawEach_cons {a : α} {as : List α} {h'' : Heap}
    (hfirst : ctx.withRandom parameter f h = (.ok a, h'))
    (hrest : ctx.drawEach parameter fs h' = (.ok as, h'')) :
    ctx.drawEach parameter (f :: fs) h = (.ok (a :: as), h'') := by
  rw [drawEach, Act.bind_apply, hfirst]
  dsimp only
  rw [Act.bind_apply, hrest]
  rfl

/-- All turns draw from the variable, one after another. -/
theorem drawEach_of_nearest (fs : List (Random.Source → α × Random.Source))
    (hres : ctx.resolve parameter = .ok (.variable name default .random))
    (hn : h.Nearest name ctx.scopes s x) (hv : h.value x = .random r) :
    ∃ h', ctx.drawEach parameter fs h = (.ok (r.thread fs).1, h') ∧
      h.Rewritten h' x (.random (r.thread fs).2) := by
  induction fs generalizing h r with
  | nil => exact ⟨h, rfl, .refl hv⟩
  | cons f fs ih =>
    obtain ⟨h₁, hfirst, hw₁⟩ := withRandom_of_nearest hres hn hv f
    obtain ⟨h₂, hrest, hw₂⟩ := ih (hw₁.nearest hn) hw₁.value
    exact ⟨h₂, drawEach_cons hfirst hrest, hw₁.trans hw₂⟩

/-- The first turn makes the variable, and the others draw from it. -/
theorem drawEach_of_unbound (fs : List (Random.Source → α × Random.Source)) (hctx : ctx.Within h)
    (hres : ctx.resolve parameter = .ok (.variable name (some i) .random))
    (hn : h.Unbound name ctx.scopes) (hv : h.value i = .random r) (hfs : fs ≠ []) :
    ∃ h' x, ctx.drawEach parameter fs h = (.ok (r.thread fs).1, h') ∧
      h.Gained h' ctx.scope name x (.random (r.thread fs).2) := by
  cases fs with
  | nil => exact absurd rfl hfs
  | cons f fs =>
    obtain ⟨h₁, x, hfirst, hg⟩ := withRandom_of_unbound hctx hres hn hv f
    obtain ⟨h₂, hrest, hw⟩ := drawEach_of_nearest fs hres hg.nearest hg.holds
    exact ⟨h₂, x, drawEach_cons hfirst hrest, hg.rewrite hw⟩

/-- All turns start from the fixed source. -/
theorem drawEach_of_fixed (fs : List (Random.Source → α × Random.Source))
    (hres : ctx.resolve parameter = .ok (.fixed i .random))
    (hv : h.value i = .random r) :
    ∃ h', ctx.drawEach parameter fs h = (.ok (fs.map fun f => (f r).1), h') ∧ h.Untouched h' := by
  induction fs generalizing h with
  | nil => exact ⟨h, rfl, .refl⟩
  | cons f fs ih =>
    obtain ⟨h₁, hfirst, hu₁⟩ := withRandom_of_fixed hres hv f
    obtain ⟨h₂, hrest, hu₂⟩ := ih (hu₁.value_eq hv (by simp))
    exact ⟨h₂, drawEach_cons hfirst hrest, hu₁.trans hu₂⟩

/-- **Draws continue one stream.** In one context, calls are served in several
turns through a parameter declared as a random source. If the name that it
stands for is unbound along the scopes of the frames and a default `r` has been
met, then the answers of all turns together are those of one source equal to `r`
to all calls in a row. The bound scope gets one variable of that name, which
holds the source where it has arrived, and nothing else changes, nor does the
default. If the name is bound to a source, that is drawn from in place, and no
binding changes. From a fixed source every turn starts anew, and no scope
changes, nor any item that was there. -/
theorem draws_continue (parameter : String) (turns : List (List Random.Call))
    (hctx : ctx.Within h) :
    (∀ name i r, ctx.resolve parameter = .ok (.variable name (some i) .random) →
      h.Unbound name ctx.scopes → h.value i = .random r → turns ≠ [] →
      ∃ answers h' x, ctx.drawEach parameter (turns.map fun cs r => r.serve cs) h =
          (.ok answers, h') ∧
        answers.flatten = (r.serve turns.flatten).1 ∧ h'.value i = .random r ∧
        h.Gained h' ctx.scope name x (.random (r.serve turns.flatten).2)) ∧
    (∀ name default s x r, ctx.resolve parameter = .ok (.variable name default .random) →
      h.Nearest name ctx.scopes s x → h.value x = .random r →
      ∃ answers h', ctx.drawEach parameter (turns.map fun cs r => r.serve cs) h =
          (.ok answers, h') ∧
        answers.flatten = (r.serve turns.flatten).1 ∧
        h.Rewritten h' x (.random (r.serve turns.flatten).2)) ∧
    ∀ i r, ctx.resolve parameter = .ok (.fixed i .random) → h.value i = .random r →
      ∃ h', ctx.drawEach parameter (turns.map fun cs r => r.serve cs) h =
          (.ok (turns.map fun cs => (r.serve cs).1), h') ∧ h.Untouched h' := by
  refine ⟨fun name i r hres hn hv hturns => ?_, fun name default s x r hres hn hv => ?_,
    fun i r hres hv => ?_⟩
  · obtain ⟨hanswers, hreached⟩ := r.thread_serve turns
    obtain ⟨h', x, hdraw, hg⟩ := drawEach_of_unbound (turns.map fun cs r => r.serve cs) hctx
      hres hn hv (by simpa using hturns)
    have hdefault : h'.value i = .random r :=
      (hg.value (Heap.lt_of_value (by simp [hv]))).trans hv
    exact ⟨_, h', x, hdraw, hanswers, hdefault, hreached ▸ hg⟩
  · obtain ⟨hanswers, hreached⟩ := r.thread_serve turns
    obtain ⟨h', hdraw, hw⟩ := drawEach_of_nearest (turns.map fun cs r => r.serve cs) hres hn hv
    exact ⟨_, h', hdraw, hanswers, hreached ▸ hw⟩
  · obtain ⟨h', hdraw, hu⟩ := drawEach_of_fixed (turns.map fun cs r => r.serve cs) hres hv
    rw [List.map_map] at hdraw
    exact ⟨h', hdraw, hu⟩

end Context

namespace Sample

/-- An operator that draws from the `Noise` of the graph, which has a default. -/
def noiseGraph : SharedGraph :=
  ⟨⟨0⟩, ⟨"Noisy", ⟨[{ Parameter.lookup "Noise" .random with default := some ⟨0⟩ }]⟩,
    #[⟨"Draw", ⟨[{ Parameter.lookup "Random" .random with actual := "Noise" }]⟩, none, .empty⟩],
    some ⟨0⟩⟩⟩

/-- The operator on the second scope, under a graph frame on the first. -/
def noiseContext : Context := .frame ⟨1⟩ ⟨0⟩ ⟨1⟩ [⟨0⟩] (.root ⟨0⟩ noiseGraph ⟨0⟩)

/-- A source in the midst of its stream. -/
def noise : Random.Source := ⟨7, 2, 5⟩

/-- Two scopes that bind nothing, and the source. -/
def noiseHeap : Heap :=
  ⟨#[.random noise], #[⟨"Global", .empty, [⟨1⟩], none⟩, ⟨"0", .empty, [], some ⟨0⟩⟩], 2, 1⟩

/-- A word and five bytes in one turn, and in the next a word before the stream
is started again. -/
def noiseTurns : List (List Random.Call) := [[.word, .bytes 5], [.word, .reset, .doubleWord]]

/-- The second turn goes on after the eight bytes of the first. -/
theorem draws_continue_noise :
    noiseContext.Within noiseHeap ∧ ∃ answers h' x,
      noiseContext.drawEach "Random" (noiseTurns.map fun cs r => r.serve cs) noiseHeap =
          (.ok answers, h') ∧
        answers.flatten =
          (noise.serve [.word, .bytes 5, .word, .reset, .doubleWord]).1 ∧
        h'.value ⟨0⟩ = .random noise ∧
        noiseHeap.Gained h' ⟨1⟩ "Noise" x (.random ⟨7, 1, 2⟩) := by
  have hchain : noiseContext.scopes = [⟨1⟩, ⟨0⟩] := by rfl
  have hctx : noiseContext.Within noiseHeap := by
    intro s hs
    rw [Context.mem_scopeChain, hchain] at hs
    show s.index < 2
    simp at hs
    rcases hs with rfl | rfl <;> decide
  have hn : noiseHeap.Unbound "Noise" noiseContext.scopes := by
    intro t ht
    rw [hchain] at ht
    simp at ht
    rcases ht with rfl | rfl <;> rfl
  exact ⟨hctx, (Context.draws_continue "Random" noiseTurns hctx).1 "Noise" ⟨0⟩ noise (by rfl) hn rfl
    (by decide)⟩

end Sample

end ScopeFlow
