import Mathlib.Algebra.BigOperators.Ring.List
import Mathlib.Algebra.Ring.Nat
import ScopeFlow.Proofs.Operator.Drawing
import ScopeFlow.Scope.Snapshot

/-!
# What equal sources have in common

Sources are equal as values if their seeds are and if they have served as many
draws. What they answer from then on depends on the seed and on the place in
the stream, and one draw may go further in the stream than another.

* `Source.Reached` says by which calls and copies a source has come about, and
  `Source.Reached.eq` that this determines it: the calls since the last restart
  say how many draws there have been and how many words they have taken;
* `Source.Alike` relates equal sources whose streams go on alike, and
  `Source.alike_iff` says that these are the ones with the same answers;
* `Snapshot.same_valueAt?` says that equal snapshots have equal values at the
  same places;
* `Source.equal_sources_continue` puts together when sources are equal, when
  equal ones answer alike, and what follows for trees.
-/

namespace ScopeFlow

namespace Random

variable {seed seed' : UInt64} {past past' : List Call} {r r' : Source}

/-! ## Histories -/

/-- How many draws a call counts as. -/
def Call.counted : Call → Nat
  | .word | .doubleWord | .bytes _ => 1
  | .reset | .draws | .seed => 0

/-- How many words of the stream a call takes. -/
def Call.taken : Call → Nat
  | .word => 1
  | .doubleWord => 2
  | .bytes n => (n + 3) / 4
  | .reset | .draws | .seed => 0

/-- Of calls in the order from the latest to the first, those since the stream
was last started again. -/
def sinceReset (past : List Call) : List Call := past.takeWhile fun c => c ≠ .reset

/-- The draws since the stream was last started. -/
def drawn (past : List Call) : Nat := ((sinceReset past).map Call.counted).sum

/-- The words taken since the stream was last started. -/
def taken (past : List Call) : Nat := ((sinceReset past).map Call.taken).sum

theorem sinceReset_cons {c : Call} (hc : c ≠ .reset) (past : List Call) :
    sinceReset (c :: past) = c :: sinceReset past := by
  simp [sinceReset, hc]

theorem drawn_cons {c : Call} (hc : c ≠ .reset) (past : List Call) :
    drawn (c :: past) = drawn past + c.counted := by
  rw [drawn, sinceReset_cons hc, List.map_cons, List.sum_cons, Nat.add_comm]
  rfl

theorem taken_cons {c : Call} (hc : c ≠ .reset) (past : List Call) :
    taken (c :: past) = taken past + c.taken := by
  rw [taken, sinceReset_cons hc, List.map_cons, List.sum_cons, Nat.add_comm]
  rfl

/-- Where all draws take as many words, their number says how many were taken. -/
theorem taken_of_even {k : Nat} (heven : ∀ c ∈ sinceReset past, c.taken = k * c.counted) :
    taken past = k * drawn past := by
  rw [taken, drawn, List.map_congr_left heven, List.sum_map_mul_left]

namespace Source

/-- A source that has come from a seed by calls, the latest of which is listed
first, and by copies, as a value is copied along with its tree. -/
inductive Reached (seed : UInt64) : List Call → Source → Prop
  | start : Reached seed [] (ofSeed seed)
  | call {past : List Call} {r : Source} (c : Call) : Reached seed past r →
      Reached seed (c :: past) (r.answer c).2
  | clone {past : List Call} {r r' : Source} (f : OperatorId → OperatorId) :
      Reached seed past r → (Value.random r).mapOperator f = .random r' → Reached seed past r'

/-- A history says all about a source. -/
theorem Reached.eq (hr : Reached seed past r) : r = ⟨seed, drawn past, taken past⟩ := by
  induction hr with
  | start => rfl
  | clone f _ hcopy ih => exact (Value.random.inj hcopy).symm.trans ih
  | call c _ ih =>
    subst ih
    cases c with
    | reset => rfl
    | _ => rw [drawn_cons (by simp), taken_cons (by simp)]; rfl

theorem same_iff : r.same r' ↔ r.seed = r'.seed ∧ r.draws = r'.draws := by simp [same]

/-! ## Futures -/

/-- Equal sources, with the same words to come. -/
structure Alike (r r' : Source) : Prop where
  seed : r.seed = r'.seed
  draws : r.draws = r'.draws
  stream : ∀ n, streamWord r.seed (r.position + n) = streamWord r'.seed (r'.position + n)

namespace Alike

theorem refl : Alike r r := ⟨rfl, rfl, fun _ => rfl⟩

/-- They stay so when both have drawn as many words. -/
theorem advance (ha : Alike r r') (k : Nat) : Alike (r.advance k) (r'.advance k) where
  seed := ha.seed
  draws := congrArg (· + 1) ha.draws
  stream := by
    intro n
    show streamWord r.seed (r.position + k + n) = streamWord r'.seed (r'.position + k + n)
    rw [Nat.add_assoc, Nat.add_assoc]
    exact ha.stream (k + n)

theorem upcoming (ha : Alike r r') (k : Nat) : r.upcoming k = r'.upcoming k :=
  List.map_congr_left fun i _ => ha.stream i

/-- They answer each call alike, and go on so. -/
theorem answer (ha : Alike r r') (c : Call) :
    (r.answer c).1 = (r'.answer c).1 ∧ Alike (r.answer c).2 (r'.answer c).2 := by
  have hfirst : streamWord r.seed r.position = streamWord r'.seed r'.position := ha.stream 0
  have hsecond : streamWord r.seed (r.position + 1) = streamWord r'.seed (r'.position + 1) :=
    ha.stream 1
  cases c with
  | word => exact ⟨congrArg Answer.word hfirst, ha.advance 1⟩
  | doubleWord =>
    refine ⟨?_, ha.advance 2⟩
    simp only [Source.answer, nextDoubleWord, hfirst, hsecond]
  | bytes n =>
    refine ⟨?_, ha.advance ((n + 3) / 4)⟩
    simp only [Source.answer, nextBytes, ha.upcoming]
  | reset =>
    -- Both are back at the start of one stream.
    have hstart : r.reset = r'.reset := congrArg ofSeed ha.seed
    refine ⟨rfl, ?_⟩
    show Alike r.reset r'.reset
    rw [hstart]
    exact refl
  | draws => exact ⟨congrArg Answer.draws ha.draws, ha⟩
  | seed => exact ⟨congrArg Answer.seed ha.seed, ha⟩

/-- So that they answer any calls alike. -/
theorem serve (ha : Alike r r') (calls : List Call) : (r.serve calls).1 = (r'.serve calls).1 := by
  induction calls generalizing r r' with
  | nil => rfl
  | cons c cs ih =>
    obtain ⟨hanswer, hnext⟩ := ha.answer c
    rw [serve_cons, serve_cons, hanswer, ih hnext]

end Alike

/-- Sources that answer alike still do so after a call. -/
theorem answers_tail (hall : ∀ calls, (r.serve calls).1 = (r'.serve calls).1) (c : Call)
    (calls : List Call) :
    ((r.answer c).2.serve calls).1 = ((r'.answer c).2.serve calls).1 := by
  have hboth := hall (c :: calls)
  rw [serve_cons, serve_cons] at hboth
  exact (List.cons.inj hboth).2

theorem answers_head (hall : ∀ calls, (r.serve calls).1 = (r'.serve calls).1) (c : Call) :
    (r.answer c).1 = (r'.answer c).1 := by
  have hboth := hall [c]
  rw [serve_cons, serve_cons] at hboth
  exact (List.cons.inj hboth).1

/-- Their streams go on alike, since single words can be drawn. -/
theorem stream_of_answers (hall : ∀ calls, (r.serve calls).1 = (r'.serve calls).1) (n : Nat) :
    streamWord r.seed (r.position + n) = streamWord r'.seed (r'.position + n) := by
  induction n generalizing r r' with
  | zero => exact Answer.word.inj (answers_head hall .word)
  | succ n ih =>
    have hnext := ih (answers_tail hall .word)
    change streamWord r.seed (r.position + 1 + n) =
      streamWord r'.seed (r'.position + 1 + n) at hnext
    rwa [Nat.add_assoc, Nat.add_assoc, Nat.add_comm 1 n] at hnext

/-- Sources with the same answers to all calls are those that are alike. -/
theorem alike_iff : Alike r r' ↔ ∀ calls, (r.serve calls).1 = (r'.serve calls).1 :=
  ⟨Alike.serve, fun hall => ⟨Answer.seed.inj (answers_head hall .seed),
    Answer.draws.inj (answers_head hall .draws), stream_of_answers hall⟩⟩

end Source

end Random

/-! ## Equal trees -/

open ScopeFlow.Random (Source)

/-- Only a source is equal to a source. -/
theorem Value.same_random {r : Source} {v : Value} (hsame : (Value.random r).same v) :
    ∃ r', v = .random r' ∧ r.same r' := by
  cases v with
  | random r' => exact ⟨r', rfl, hsame⟩
  | _ => cases hsame

namespace Snapshot

variable {t t' part : Snapshot} {name : String} {v : Value}

theorem sameVariables_lookup {vs ws : List (String × Value)} (hsame : sameVariables vs ws)
    (hv : vs.lookup name = some v) : ∃ w, ws.lookup name = some w ∧ v.same w := by
  induction vs generalizing ws with
  | nil => cases hv
  | cons entry vs ih =>
    obtain ⟨n, u⟩ := entry
    cases ws with
    | nil => cases hsame
    | cons entry' ws =>
      obtain ⟨m, w⟩ := entry'
      simp only [sameVariables, Bool.and_eq_true, beq_iff_eq] at hsame
      obtain ⟨⟨rfl, hvalue⟩, hrest⟩ := hsame
      rw [List.lookup_cons] at hv ⊢
      cases hname : name == n with
      | true =>
        rw [hname] at hv
        exact ⟨w, rfl, Option.some.inj hv ▸ hvalue⟩
      | false =>
        rw [hname] at hv
        exact ih hrest hv

theorem sameAll_getElem? {cs ds : List Snapshot} {k : Nat} (hsame : sameAll cs ds)
    (hk : cs[k]? = some part) : ∃ d, ds[k]? = some d ∧ part.same d := by
  induction cs generalizing ds k with
  | nil => cases hk
  | cons c cs ih =>
    cases ds with
    | nil => cases hsame
    | cons d ds =>
      simp only [sameAll, Bool.and_eq_true] at hsame
      cases k with
      | zero =>
        obtain rfl : c = part := Option.some.inj hk
        exact ⟨d, rfl, hsame.1⟩
      | succ k =>
        obtain ⟨d', hd', hpart⟩ := ih hsame.2 hk
        exact ⟨d', hd', hpart⟩

theorem same_iff : t.same t' ↔
    t.name = t'.name ∧ sameVariables t.values t'.values ∧ sameAll t.children t'.children := by
  cases t
  cases t'
  simp [same, Snapshot.name, values, children, and_assoc]

/-- Equal snapshots have equal parts at the same places, -/
theorem same_at? {path : List Nat} (hsame : t.same t') (hpart : t.at? path = some part) :
    ∃ part', t'.at? path = some part' ∧ part.same part' := by
  induction path generalizing t t' with
  | nil =>
    obtain rfl : t = part := Option.some.inj hpart
    exact ⟨t', rfl, hsame⟩
  | cons k path ih =>
    rw [at?] at hpart ⊢
    cases hk : t.children[k]? with
    | none =>
      rw [hk] at hpart
      cases hpart
    | some c =>
      rw [hk] at hpart
      obtain ⟨d, hd, hcd⟩ := sameAll_getElem? (same_iff.mp hsame).2.2 hk
      rw [hd]
      exact ih hcd hpart

/-- and equal values there. -/
theorem same_valueAt? {path : List Nat} (hsame : t.same t')
    (hv : t.valueAt? path name = some v) : ∃ w, t'.valueAt? path name = some w ∧ v.same w := by
  obtain ⟨part, hpart, hlookup⟩ := Option.bind_eq_some_iff.mp hv
  obtain ⟨part', hpart', hparts⟩ := same_at? hsame hpart
  obtain ⟨w, hw, hvw⟩ := sameVariables_lookup (same_iff.mp hparts).2.1 hlookup
  exact ⟨w, Option.bind_eq_some_iff.mpr ⟨part', hpart', hw⟩, hvw⟩

end Snapshot

namespace Random.Source

variable {seed seed' : UInt64} {past past' : List Call} {r r' : Source}

/-- **What equal sources have in common.** Two sources have come from any seeds
by any calls and copies. They are equal exactly if the seeds are and if both
have served as many draws since their streams were last started. They answer all
further calls alike exactly if they are equal and, from the words that each has
taken since then on, the streams of their seeds go on alike. That is so for equal
sources which have taken as many words, since these are one and the same source,
and so for equal sources whose draws have all taken equally many. At the place
of a source in a tree, another tree with an equal snapshot has an equal source,
and the same one if that stands at the same place in the stream. -/
theorem equal_sources_continue (hr : Reached seed past r) (hr' : Reached seed' past' r') :
    (r.same r' ↔ seed = seed' ∧ drawn past = drawn past') ∧
    ((∀ calls, (r.serve calls).1 = (r'.serve calls).1) ↔
      r.same r' ∧ ∀ n, streamWord seed (taken past + n) = streamWord seed' (taken past' + n)) ∧
    (r.same r' → taken past = taken past' → r' = r) ∧
    (∀ k, (∀ c ∈ sinceReset past, c.taken = k * c.counted) →
      (∀ c ∈ sinceReset past', c.taken = k * c.counted) → r.same r' → r' = r) ∧
    ∀ (h h' : Heap) (s s' : ScopeId), (h.snapshot s).same (h'.snapshot s') →
      ∀ path name, (h.snapshot s).valueAt? path name = some (.random r) →
        ∃ q, (h'.snapshot s').valueAt? path name = some (.random q) ∧ r.same q ∧
          (q.position = taken past → q = r) := by
  obtain rfl := hr.eq
  obtain rfl := hr'.eq
  refine ⟨same_iff, ?_, ?_, ?_, ?_⟩
  · rw [← alike_iff, same_iff]
    exact ⟨fun ha => ⟨⟨ha.seed, ha.draws⟩, ha.stream⟩,
      fun ⟨⟨hseed, hdraws⟩, hstream⟩ => ⟨hseed, hdraws, hstream⟩⟩
  · intro hsame htaken
    obtain ⟨rfl, hdraws⟩ := same_iff.mp hsame
    rw [htaken]
    exact congrArg (Source.mk seed · (taken past')) hdraws.symm
  · intro k heven heven' hsame
    obtain ⟨rfl, hdraws⟩ := same_iff.mp hsame
    have hdraws : drawn past = drawn past' := hdraws
    rw [taken_of_even heven, taken_of_even heven', hdraws]
  · intro h h' s s' hsame path name hv
    obtain ⟨w, hw, hvw⟩ := Snapshot.same_valueAt? hsame hv
    obtain ⟨q, rfl, hq⟩ := Value.same_random hvw
    refine ⟨q, hw, hq, fun hposition => ?_⟩
    obtain ⟨hseed, hdraws⟩ := same_iff.mp hq
    obtain ⟨seed', draws, position⟩ := q
    obtain rfl : seed = seed' := hseed
    obtain rfl : drawn past = draws := hdraws
    obtain rfl : position = taken past := hposition
    rfl

end Random.Source

namespace Sample

/-- One scope, whose `Noise` is a source. -/
def noiseTree (r : Source) : Heap :=
  ⟨#[.random r], #[⟨"Global", ⟨[("Noise", ⟨0⟩)]⟩, [], none⟩], 0, 0⟩

/-- A word after five bytes, and eight bytes after a word and a restart: three
words of the stream each. -/
theorem equal_sources_continue_noise :
    ∃ r r', Source.Reached 7 [.word, .bytes 5] r ∧
      Source.Reached 7 [.bytes 8, .word, .reset, .doubleWord] r' ∧ r.same r' ∧ r' = r ∧
      ∃ q, ((noiseTree r').snapshot ⟨0⟩).valueAt? [] "Noise" = some (.random q) ∧ r.same q ∧
        q = r := by
  have hr : Source.Reached 7 [.word, .bytes 5] ⟨7, 2, 3⟩ := .call .word (.call (.bytes 5) .start)
  have hr' : Source.Reached 7 [.bytes 8, .word, .reset, .doubleWord] ⟨7, 2, 3⟩ :=
    .call (.bytes 8) (.call .word (.call .reset (.call .doubleWord .start)))
  obtain ⟨hsame, -, hone, -, htree⟩ := Source.equal_sources_continue hr hr'
  have hequal := hsame.mpr ⟨rfl, by decide⟩
  obtain ⟨q, hq, hrq, hsource⟩ := htree (noiseTree ⟨7, 2, 3⟩) (noiseTree ⟨7, 2, 3⟩) ⟨0⟩ ⟨0⟩
    (by decide) [] "Noise" rfl
  have hposition : q.position = 3 := by
    obtain rfl : Source.mk 7 2 3 = q := Value.random.inj (Option.some.inj hq)
    rfl
  exact ⟨_, _, hr, hr', hequal, hone hequal (by decide), q, hq, hrq, hsource hposition⟩

/-- One draw each, of one word and of two: the sources are equal, and so are the
snapshots of trees that hold them, but the next words differ. -/
theorem equal_sources_part :
    ∃ r r', Source.Reached 7 [.word] r ∧ Source.Reached 7 [.doubleWord] r' ∧ r.same r' ∧
      ((noiseTree r).snapshot ⟨0⟩).same ((noiseTree r').snapshot ⟨0⟩) ∧
      (r.serve [.word]).1 = [.word 130212073] ∧ (r'.serve [.word]).1 = [.word 612261766] :=
  ⟨⟨7, 1, 1⟩, ⟨7, 1, 2⟩, .call .word .start, .call .doubleWord .start, by decide, by decide,
    by decide +kernel, by decide +kernel⟩

end Sample

end ScopeFlow
