import BufferFusion.Proofs.Graph.Listed

/-!
# Substitution

A replacement makes all its checks before it changes anything. What follows are several updates, one
after the other, and none of them can fail on the way. So a replacement that is refused leaves the
graph as it was, and one that is not puts the new node wherever the old one stood.
-/
namespace BufferFusion.Graph

open Relation

variable {g g' : Graph} {old new : NodeId} {rewire : Bool} {cs : List NodeId}

/-! ### Step by step -/

/-- Redirects consumers one after the other, as far as they are there. -/
def rewireEach (old new : NodeId) : List NodeId → Graph → Graph × Result Unit
  | [], g => (g, .ok ())
  | c :: cs, g =>
    match g.get c with
    | .error e => (g, .error e)
    | .ok _ => rewireEach old new cs (g.rewireConsumer old new c)

/-- A replacement as a course of updates, with the graph that is left where one of them fails. -/
def replaceInPlace (g : Graph) (old new : NodeId) (rewire : Bool) : Graph × Result Unit :=
  match g.checkReplace old new rewire with
  | .error e => (g, .error e)
  | .ok () =>
    match rewireEach old new (g.consumers old) g with
    | (h, .error e) => (h, .error e)
    | (h, .ok ()) => ((h.replaceOutputs old new).remove old, .ok ())

theorem rewireEach_eq (hcs : ∀ c ∈ cs, g.contains c = true) :
    rewireEach old new cs g = (cs.foldl (fun h c => h.rewireConsumer old new c) g, .ok ()) := by
  induction cs generalizing g with
  | nil => rfl
  | cons c cs ih =>
    rw [List.forall_mem_cons] at hcs
    obtain ⟨n, hn⟩ := contains_iff.1 hcs.1
    have hrest : ∀ x ∈ cs, (g.rewireConsumer old new c).contains x = true := by
      intro x hx
      obtain ⟨m, hm⟩ := contains_iff.1 (hcs.2 x hx)
      rw [contains, node?_rewireConsumer, hm]
      split <;> rfl
    simp only [rewireEach, get_eq_ok.2 hn, List.foldl_cons, ih hrest]

/-- No update fails: all consumers are there. -/
theorem Sound.replaceInPlace_of_ok (hs : g.Sound) (h : g.checkReplace old new rewire = .ok ()) :
    ∃ g', g.replace old new rewire = .ok g' ∧ g.replaceInPlace old new rewire = (g', .ok ()) := by
  have hlive : ∀ c ∈ g.consumers old, g.contains c = true := fun c hc =>
    (hs.mem_consumers_iff.1 hc).contains_right
  refine ⟨_, Result.bind_eq_ok.2 ⟨(), h, rfl⟩, ?_⟩
  simp only [replaceInPlace, h, rewireEach_eq hlive]

theorem replaceInPlace_of_error {e : Error} (h : g.checkReplace old new rewire = .error e) :
    g.replace old new rewire = .error e ∧ g.replaceInPlace old new rewire = (g, .error e) := by
  rw [replace, replaceInPlace, h]
  exact ⟨rfl, rfl⟩

/-! ### When a node can be replaced -/

/-- Both nodes are there, the new one does not depend on the old one, and nobody needs the old one
if nobody is to be redirected. -/
structure Replaceable (g : Graph) (old new : NodeId) (rewire : Bool) : Prop where
  old_live : g.contains old = true
  new_live : g.contains new = true
  ne : old ≠ new
  unreached : ¬ ReflTransGen g.Feeds old new
  unused : rewire = false → (∀ c, ¬ g.Feeds old c) ∧ old ∉ g.marked

/-- What is checked of two nodes that are there. -/
theorem Sound.checkReplace_eq (hs : g.Sound) {n : Node} (hold : g.node? old = some n)
    (hnew : g.contains new = true) (rewire : Bool) : g.checkReplace old new rewire =
      if old = new then .error (.replaceItself n.name)
      else if g.reaches old new then .error (.replaceCycle n.name)
      else if rewire = false ∧ g.consumers old ≠ [] then
        .error (.stillConsumed n.name (g.consumers old).length)
      else if rewire = false ∧ g.marked.contains old then .error (.replaceOutput n.name)
      else .ok () := by
  obtain ⟨m, hm⟩ := contains_iff.1 hnew
  rw [checkReplace, get_eq_ok.2 hold, get_eq_ok.2 hm, hs.hasPath_eq (contains_iff.2 ⟨n, hold⟩)]
  rfl

/-- A refusal is about a node that is not there or about the place of one that is. -/
theorem Sound.checkReplace_cases (hs : g.Sound) (old new : NodeId) (rewire : Bool) :
    g.checkReplace old new rewire = .ok () ∧ g.Replaceable old new rewire ∨
      ∃ e, g.checkReplace old new rewire = .error e ∧ ¬ g.Replaceable old new rewire ∧
        e.kind = if g.contains old && g.contains new then .invalidGraph else .nodeNotFound := by
  have hlost : ∀ x, g.node? x = none → g.contains x = false := fun x hx => by rw [contains, hx]; rfl
  cases hold : g.node? old with
  | none =>
    refine .inr ⟨.missingNode old, ?_, fun h => ?_, ?_⟩
    · rw [checkReplace, get, hold]
      rfl
    · exact Bool.false_ne_true ((hlost old hold).symm.trans h.old_live)
    · rw [hlost old hold]
      rfl
  | some n =>
    cases hnew : g.node? new with
    | none =>
      refine .inr ⟨.missingNode new, ?_, fun h => ?_, ?_⟩
      · rw [checkReplace, get_eq_ok.2 hold, get, hnew]
        rfl
      · exact Bool.false_ne_true ((hlost new hnew).symm.trans h.new_live)
      · rw [hlost new hnew, Bool.and_false]
        rfl
    | some m =>
      have holdl := contains_iff.2 ⟨n, hold⟩
      have hnewl := contains_iff.2 ⟨m, hnew⟩
      have hreach : g.reaches old new = true ↔ ReflTransGen g.Feeds old new :=
        hs.reaches_iff holdl
      have hcons : g.consumers old = [] ↔ ∀ c, ¬ g.Feeds old c := by
        simp only [List.eq_nil_iff_forall_not_mem, hs.mem_consumers_iff]
      have hmarked : g.marked.contains old = true ↔ old ∈ g.marked := List.contains_iff_mem
      have hkind : (if g.contains old && g.contains new then ErrorKind.invalidGraph
          else .nodeNotFound) = .invalidGraph := by rw [holdl, hnewl]; rfl
      rw [hs.checkReplace_eq hold hnewl, hkind]
      split
      · next he => exact .inr ⟨_, rfl, fun h => h.ne he, rfl⟩
      next hne =>
      split
      · next hr => exact .inr ⟨_, rfl, fun h => h.unreached (hreach.1 hr), rfl⟩
      next hr =>
      split
      · next hc => exact .inr ⟨_, rfl, fun h => hc.2 (hcons.2 (h.unused hc.1).1), rfl⟩
      next hc =>
      split
      · next hm => exact .inr ⟨_, rfl, fun h => (h.unused hm.1).2 (hmarked.1 hm.2), rfl⟩
      next hm =>
      refine .inl ⟨rfl, holdl, hnewl, hne, fun h => hr (hreach.2 h), fun hrew => ⟨?_, ?_⟩⟩
      · exact hcons.1 (not_not.1 fun h => hc ⟨hrew, h⟩)
      · exact fun h => hm ⟨hrew, hmarked.2 h⟩

/-! ### What a replacement leaves -/

/-- `g'` is `g` with `new` in the place of `old`: in the slots of its consumers, among the outputs,
and nowhere else. -/
structure Substituted (g : Graph) (old new : NodeId) (g' : Graph) : Prop where
  node? : ∀ x, g'.node? x = if x = old then none else (g.node? x).map (·.redirect old new)
  marked : g'.marked = (g.marked.map (substitute old new)).eraseDups
  edges : g'.edges.Perm g'.dataEdges
  sharing : g'.sharing.edges = g.sharing.edges.filter fun e => !e.touches old
  lookup : ∀ name, g'.names.lookup name = (g.names.lookup name).filter (· != old)

theorem Replaced.substituted (h : g.Replaced old new g') (hs : g.Sound) (k : g.Listed)
    (k' : g'.Listed) : g.Substituted old new g' where
  node? := h.node?
  marked := h.marked
  edges := k'.edges_perm (h.sound hs)
  sharing := by rw [h.sharing, Sharing.removeNode]
  lookup := by
    intro name
    refine Option.ext fun id => ?_
    rw [k'.lookup_iff (h.sound hs), Option.filter_eq_some_iff, k.lookup_iff hs, bne_iff_ne]
    constructor
    · rintro ⟨n', hn', hname⟩
      obtain ⟨hid, n, hn, rfl⟩ := h.node_iff.1 hn'
      exact ⟨⟨n, hn, hname⟩, hid⟩
    · rintro ⟨⟨n, hn, hname⟩, hid⟩
      exact ⟨n.redirect old new, h.node_redirect hid hn, hname⟩

/-- Where a node can be replaced, the updates go through and leave the new node in its place; where
it cannot, it is refused and nothing has changed. -/
theorem Reachable.substitutes (h : g.Reachable) (old new : NodeId) (rewire : Bool) :
    (g.Replaceable old new rewire → ∃ g', g.replace old new rewire = .ok g' ∧
      g.replaceInPlace old new rewire = (g', .ok ()) ∧ g.Substituted old new g') ∧
    (¬ g.Replaceable old new rewire → ∃ e, g.replace old new rewire = .error e ∧
      g.replaceInPlace old new rewire = (g, .error e) ∧
        e.kind = if g.contains old && g.contains new then .invalidGraph else .nodeNotFound) := by
  have hs := h.sound
  rcases hs.checkReplace_cases old new rewire with ⟨hok, hcan⟩ | ⟨e, herr, hnot, hkind⟩
  · refine ⟨fun _ => ?_, fun hnot => absurd hcan hnot⟩
    obtain ⟨g', hr, hin⟩ := hs.replaceInPlace_of_ok hok
    exact ⟨g', hr, hin, (hs.replaced hr).substituted hs h.listed (h.listed.replace hs hr)⟩
  · refine ⟨fun hcan => absurd hcan hnot, fun _ => ?_⟩
    obtain ⟨hr, hin⟩ := replaceInPlace_of_error herr
    exact ⟨e, hr, hin, hkind⟩

/-- A copy of a vector, and a row that joins the two. -/
def relayGraph : Graph :=
  ((empty.place "x" (.input (.plain (.ofSizes [2]) .f32)) []).place "copy" (.reorder .bfyx .f32)
    [0]).place "row" (.concatenation 0) [1, 0, 1]

/-- All three are outputs here, and share buffers. -/
def relaySample : Graph :=
  { relayGraph with
    marked := [1, 2, 0]
    sharing := ⟨[⟨1, 2, .view 3⟩, ⟨0, 2, .view 5⟩, ⟨0, 1, .view 0⟩]⟩ }

theorem reachable_relaySample : relaySample.Reachable := by
  have hbuilt : relayGraph.Built := Built.empty.place rfl |>.place rfl |>.place rfl
  have hmarked : Built { relayGraph with marked := [1, 2, 0] } :=
    @Built.mark _ _ 0 (@Built.mark _ _ 2 (@Built.mark _ _ 1 hbuilt rfl) rfl) rfl
  exact hmarked.reachable.setSharing _

/-- The vector can take the place of its copy. The row, which reads the vector, cannot take the place
of that. -/
theorem substitutes_relaySample :
    (∃ g', relaySample.replace 1 0 true = .ok g' ∧ relaySample.Substituted 1 0 g' ∧
      (g'.node? 2).map (·.inputs) = some [0, 0, 0] ∧ g'.marked = [0, 2] ∧
        g'.sharing.edges = [⟨0, 2, .view 5⟩]) ∧
    ∃ e, relaySample.replace 0 2 true = .error e ∧
      relaySample.replaceInPlace 0 2 true = (relaySample, .error e) := by
  have h := reachable_relaySample
  have hcan : relaySample.Replaceable 1 0 true := by
    refine ⟨rfl, rfl, by decide, fun hp => ?_, nofun⟩
    exact absurd ((h.sound.reaches_iff rfl).2 hp) (by decide)
  have hnot : ¬ relaySample.Replaceable 0 2 true := fun hcan =>
    hcan.unreached ((h.sound.reaches_iff rfl).1 (by decide))
  obtain ⟨g', hr, -, hsub⟩ := (h.substitutes 1 0 true).1 hcan
  obtain ⟨e, herr, hin, -⟩ := (h.substitutes 0 2 true).2 hnot
  refine ⟨⟨g', hr, hsub, ?_, ?_, ?_⟩, e, herr, hin⟩
  · rw [hsub.node?]
    rfl
  · rw [hsub.marked]
    decide
  · rw [hsub.sharing]
    rfl

end BufferFusion.Graph
