import BufferFusion.Execution.Recheck
import BufferFusion.Proofs.Fusion.InPlace
import BufferFusion.Proofs.Fusion.View
import BufferFusion.Proofs.Sharing.Edges

/-!
# States and edges

What fusion and rechecking keep between the states of the nodes and the edges of shared buffers: a
view has an edge from its producer, an in-place concatenation one to each of its inputs, and there
are no others. Accepting, renewing and demoting one node keep it, whatever happens to layouts.
-/
namespace BufferFusion.Graph

variable {g h : Graph} {id x : NodeId}

/-- The node is a concatenation along the axis. -/
def Joins (g : Graph) (id : NodeId) (axis : Nat) : Prop :=
  ∃ n, g.node? id = some n ∧ n.op = .concatenation axis

theorem Joins.unique {axis axis' : Nat} (hj : g.Joins id axis) (hj' : g.Joins id axis') :
    axis = axis' := by
  obtain ⟨n, hn, hop⟩ := hj
  obtain ⟨n', hn', hop'⟩ := hj'
  obtain rfl := Option.some.inj (hn.symm.trans hn')
  exact Operation.concatenation.inj (hop.symm.trans hop')

/-- What is proposed as a view is no concatenation. -/
theorem not_joins_of_view {n : Node} {p : Proposal} {producer : NodeId} {input output : Layout}
    (hn : g.node? id = some n) (hv : Fuse.ViewProposal g n p producer input output) (axis : Nat) :
    ¬ g.Joins id axis := by
  rintro ⟨m, hm, hop⟩
  obtain rfl := Option.some.inj (hn.symm.trans hm)
  exact hv.reason.not_concatenation axis hop

/-- The node's kernel can write into a slice. -/
def Writes (g : Graph) (id : NodeId) : Prop :=
  ∃ n, g.node? id = some n ∧ Fuse.writesSlices n.op = true

theorem SameWiring.input (w : g.SameWiring h) {slot : Nat} {a : NodeId}
    (hi : g.input id slot = .ok a) : h.input id slot = .ok a := by
  obtain ⟨n, hn, -⟩ := Result.bind_eq_ok.1 hi
  obtain ⟨m, hm, -, -, hin, -⟩ := w.node (get_eq_ok.1 hn)
  rw [input_eq_ok (get_eq_ok.1 hn)] at hi
  rwa [input_eq_ok hm, hin]

theorem SameWiring.joins (w : g.SameWiring h) {axis : Nat} (hj : g.Joins id axis) :
    h.Joins id axis := by
  obtain ⟨n, hn, hop⟩ := hj
  obtain ⟨m, hm, -, -, -, hop'⟩ := w.node hn
  refine ⟨m, hm, ?_⟩
  rcases hop'.eq_or_input with he | ⟨l, l', -, he⟩
  · exact he.trans hop
  · cases hop.symm.trans he

theorem SameWiring.writes (w : g.SameWiring h) (hw : g.Writes id) : h.Writes id := by
  obtain ⟨n, hn, hop⟩ := hw
  obtain ⟨m, hm, -, -, -, hop'⟩ := w.node hn
  refine ⟨m, hm, ?_⟩
  rcases hop'.eq_or_input with he | ⟨l, l', -, he⟩
  · rwa [he]
  · rw [he] at hop
    cases hop

/-- A graph with other edges and another state of one node. -/
theorem sameWiring_place (g : Graph) (id : NodeId) (s : Sharing) (st : FusionState) :
    ((g.setSharing s).setState id st).SameWiring g :=
  (sameWiring_setState _ id st).trans (sameWiring_setSharing g s)

theorem state?_place (g : Graph) (s : Sharing) (st : FusionState) (hx : id ≠ x) :
    ((g.setSharing s).setState id st).state? x = g.state? x := by
  rw [state?_setState, if_neg hx, state?_setSharing]

theorem state?_place_self (g : Graph) (s : Sharing) (st : FusionState) {st₀ : FusionState}
    (hid : g.state? id = some st₀) : ((g.setSharing s).setState id st).state? id = some st := by
  rw [state?_setState, if_pos rfl, state?_setSharing, hid, Option.map_some]

/-- The owner of a slice edge, or an optimized node, is not one that is still to be decided. -/
theorem ne_of_state? {s : FusionState} (hid : g.state? id = some s)
    (hs : s.isOptimized = false) {into : NodeId} {offset : Nat}
    (hx : g.state? x = some (.optimized into offset)) : id ≠ x := by
  rintro rfl
  rw [hid] at hx
  obtain rfl := Option.some.inj hx
  cases hs

/-- States and edges agree. -/
structure Linked (g : Graph) : Prop where
  once : Sharing.Once g.sharing.edges
  /-- The member of a view edge is a view of its first input. -/
  view : ∀ {owner member offset}, ⟨owner, member, .view offset⟩ ∈ g.sharing.edges →
    g.state? member = some (.optimized owner offset) ∧ g.input member 0 = .ok owner ∧
      ∀ axis, ¬ g.Joins member axis
  /-- The owner of a slice edge is a concatenation done in place. -/
  owner : ∀ {owner member index axis offset extent},
    ⟨owner, member, .slice index axis offset extent⟩ ∈ g.sharing.edges →
      g.state? owner = some (.optimized owner 0) ∧ g.Joins owner axis ∧
        g.input owner index = .ok member
  /-- The member of a slice edge writes its output for that concatenation alone. -/
  writer : ∀ {owner member index axis offset extent},
    ⟨owner, member, .slice index axis offset extent⟩ ∈ g.sharing.edges →
      (∃ s, g.state? member = some s ∧ s.isOptimized = false) ∧
        g.consumers member = [owner] ∧ g.isOutput member = false ∧ g.Writes member
  /-- An optimized node has its edges. -/
  optimized : ∀ {id into offset}, g.state? id = some (.optimized into offset) →
    ⟨into, id, .view offset⟩ ∈ g.sharing.edges ∨ into = id ∧ offset = 0 ∧ ∃ axis,
      g.Joins id axis ∧ ∀ i m, g.input id i = .ok m → ∃ before extent,
        ⟨id, m, .slice i axis before extent⟩ ∈ g.sharing.edges

namespace Linked

/-! What the edges say of a graph they also say of one with the same wiring, as far as the states
of their nodes are the same. -/

theorem view_of_state? (k : g.Linked) (w : g.SameWiring h) {owner member offset}
    (he : ⟨owner, member, .view offset⟩ ∈ g.sharing.edges)
    (hs : h.state? member = g.state? member) :
    h.state? member = some (.optimized owner offset) ∧ h.input member 0 = .ok owner ∧
      ∀ axis, ¬ h.Joins member axis := by
  obtain ⟨hstate, hin, hj⟩ := k.view he
  exact ⟨hs.trans hstate, w.input hin, fun axis hm => hj axis (w.symm.joins hm)⟩

theorem owner_of_state? (k : g.Linked) (w : g.SameWiring h)
    {owner member index axis offset extent}
    (he : ⟨owner, member, .slice index axis offset extent⟩ ∈ g.sharing.edges)
    (hs : h.state? owner = g.state? owner) :
    h.state? owner = some (.optimized owner 0) ∧ h.Joins owner axis ∧
      h.input owner index = .ok member := by
  obtain ⟨hstate, hj, hin⟩ := k.owner he
  exact ⟨hs.trans hstate, w.joins hj, w.input hin⟩

theorem writer_of_state? (k : g.Linked) (w : g.SameWiring h)
    {owner member index axis offset extent}
    (he : ⟨owner, member, .slice index axis offset extent⟩ ∈ g.sharing.edges)
    (hs : h.state? member = g.state? member) :
    (∃ s, h.state? member = some s ∧ s.isOptimized = false) ∧
      h.consumers member = [owner] ∧ h.isOutput member = false ∧ h.Writes member := by
  obtain ⟨hstate, hone, hout, hw⟩ := k.writer he
  exact ⟨hs ▸ hstate, (w.consumers_eq member) ▸ hone, (w.isOutput_eq member) ▸ hout, w.writes hw⟩

theorem optimized_of_wiring (k : g.Linked) (w : g.SameWiring h) {into offset}
    (hx : g.state? x = some (.optimized into offset)) :
    ⟨into, x, .view offset⟩ ∈ g.sharing.edges ∨ into = x ∧ offset = 0 ∧ ∃ axis,
      h.Joins x axis ∧ ∀ i m, h.input x i = .ok m → ∃ before extent,
        ⟨x, m, .slice i axis before extent⟩ ∈ g.sharing.edges := by
  rcases k.optimized hx with hv | ⟨hinto, hzero, axis, hj, hall⟩
  · exact .inl hv
  · exact .inr ⟨hinto, hzero, axis, w.joins hj, fun i m hi => hall i m (w.symm.input hi)⟩

/-- Layouts and assumptions have no part in it. -/
theorem congr (k : g.Linked) (w : g.SameWiring h) (hs : ∀ x, h.state? x = g.state? x)
    (he : h.sharing = g.sharing) : h.Linked where
  once := he ▸ k.once
  view := fun hm => k.view_of_state? w (he ▸ hm) (hs _)
  owner := fun hm => k.owner_of_state? w (he ▸ hm) (hs _)
  writer := fun hm => k.writer_of_state? w (he ▸ hm) (hs _)
  optimized := fun hx => by
    rw [he]
    exact k.optimized_of_wiring w ((hs _).symm.trans hx)

/-! An optimized node is a view or a concatenation done in place, and one thing tells which. -/

section Optimized
variable {into : NodeId} {offset : Nat}

theorem view_of_ne (k : g.Linked) (hx : g.state? x = some (.optimized into offset))
    (hne : into ≠ x) : ⟨into, x, .view offset⟩ ∈ g.sharing.edges :=
  (k.optimized hx).resolve_right fun hown => hne hown.1

theorem view_of_not_joins (k : g.Linked) (hx : g.state? x = some (.optimized into offset))
    (hj : ∀ axis, ¬ g.Joins x axis) : ⟨into, x, .view offset⟩ ∈ g.sharing.edges :=
  (k.optimized hx).resolve_right fun ⟨_, _, axis, hjoins, _⟩ => hj axis hjoins

theorem inPlace_of_joins (k : g.Linked) (hx : g.state? x = some (.optimized into offset))
    {axis : Nat} (hj : g.Joins x axis) : into = x ∧ offset = 0 ∧ ∀ {i m}, g.input x i = .ok m →
      ∃ before extent, ⟨x, m, .slice i axis before extent⟩ ∈ g.sharing.edges := by
  rcases k.optimized hx with hv | ⟨hinto, hzero, axis', hj', hall⟩
  · exact absurd hj ((k.view hv).2.2 axis)
  · obtain rfl := hj.unique hj'
    exact ⟨hinto, hzero, fun hi => hall _ _ hi⟩

/-- A node is no view of itself. -/
theorem inPlace_of_self (k : g.Linked) (hs : g.Sound)
    (hx : g.state? x = some (.optimized x offset)) : offset = 0 ∧ ∃ axis, g.Joins x axis ∧
      ∀ {i m}, g.input x i = .ok m →
        ∃ before extent, ⟨x, m, .slice i axis before extent⟩ ∈ g.sharing.edges := by
  rcases k.optimized hx with hv | ⟨-, hzero, axis, hj, hall⟩
  · exact absurd (k.view hv).2.1 hs.input_ne
  · exact ⟨hzero, axis, hj, fun hi => hall _ _ hi⟩

/-- A view that is proposed again is one of the same producer. -/
theorem view_of_proposal (k : g.Linked) (hs : g.Sound)
    (hx : g.state? x = some (.optimized into offset)) {n : Node} (hn : g.node? x = some n)
    {p : Proposal} {producer : NodeId} {input output : Layout}
    (hv : Fuse.ViewProposal g n p producer input output) :
    into = producer ∧ into ≠ x ∧ ⟨into, x, .view offset⟩ ∈ g.sharing.edges := by
  obtain rfl := hs.id_eq hn
  have he := k.view_of_not_joins hx (not_joins_of_view hn hv)
  have hin := (k.view he).2.1
  refine ⟨Except.ok.inj (hin.symm.trans hv.reads), ?_, he⟩
  rintro rfl
  exact hs.input_ne hin

end Optimized

/-- A member of a slice is not optimized. -/
theorem not_optimized (k : g.Linked) {owner member index axis offset extent into off}
    (he : ⟨owner, member, .slice index axis offset extent⟩ ∈ g.sharing.edges) :
    g.state? member ≠ some (.optimized into off) := by
  obtain ⟨⟨s, hs, hopt⟩, -⟩ := k.writer he
  intro hm
  rw [hs] at hm
  obtain rfl := Option.some.inj hm
  cases hopt

/-- A node that is not decided about becomes one that is rejected, or asked again. -/
theorem setState (k : g.Linked) {s s' : FusionState} (hid : g.state? id = some s)
    (hs : s.isOptimized = false) (hs' : s'.isOptimized = false) : (g.setState id s').Linked := by
  have w := (sameWiring_setState g id s').symm
  have hstate : ∀ {y}, id ≠ y → (g.setState id s').state? y = g.state? y := fun hy => by
    rw [state?_setState, if_neg hy]
  constructor
  · exact k.once
  · intro o m off he
    exact k.view_of_state? w he (hstate (ne_of_state? hid hs (k.view he).1))
  · intro o m i axis b e he
    exact k.owner_of_state? w he (hstate (ne_of_state? hid hs (k.owner he).1))
  · intro o m i axis b e he
    by_cases hm : id = m
    · -- the node stays one that is not optimized
      subst hm
      obtain ⟨-, h₁, h₂, h₃⟩ := k.writer he
      refine ⟨⟨s', ?_, hs'⟩, (w.consumers_eq id) ▸ h₁, (w.isOutput_eq id) ▸ h₂, w.writes h₃⟩
      rw [state?_setState, if_pos rfl, hid, Option.map_some]
    · exact k.writer_of_state? w he (hstate hm)
  · intro y into off hy
    by_cases hyid : id = y
    · subst hyid
      rw [state?_setState, if_pos rfl, hid, Option.map_some] at hy
      obtain rfl := Option.some.inj hy
      cases hs'
    · exact k.optimized_of_wiring w ((hstate hyid).symm.trans hy)

theorem addView (k : g.Linked) {s : FusionState} (hid : g.state? id = some s)
    (hs : s.isOptimized = false) {into : NodeId} {offset : Nat}
    (hfree : ∀ e ∈ g.sharing.edges, e.member ≠ id) (hin : g.input id 0 = .ok into)
    (hj : ∀ axis, ¬ g.Joins id axis) :
    ((g.setSharing (g.sharing.commit [⟨into, id, .view offset⟩])).setState id
      (.optimized into offset)).Linked := by
  have w := (sameWiring_place g id (g.sharing.commit [⟨into, id, .view offset⟩])
    (.optimized into offset)).symm
  constructor
  · simp only [sharing_setState, sharing_setSharing, Sharing.edges_commit, Sharing.Once,
      List.map_append, List.map_cons, List.map_nil]
    refine List.nodup_append.2 ⟨k.once, List.nodup_singleton _, ?_⟩
    intro y hy z hz hyz
    obtain ⟨e, he, rfl⟩ := List.mem_map.1 hy
    exact hfree e he (hyz.trans (List.mem_singleton.1 hz))
  · intro o m off he
    rcases List.mem_append.1 he with he | he
    · exact k.view_of_state? w he (state?_place _ _ _ (Ne.symm (hfree _ he)))
    · obtain ⟨rfl, rfl, hp⟩ := SharingEdge.mk.inj (List.mem_singleton.1 he)
      obtain rfl := Placement.view.inj hp
      exact ⟨state?_place_self _ _ _ hid, w.input hin, fun axis hm => hj axis (w.symm.joins hm)⟩
  · intro o m i axis b e he
    have he := (List.mem_append.1 he).resolve_right (by simp)
    exact k.owner_of_state? w he (state?_place _ _ _ (ne_of_state? hid hs (k.owner he).1))
  · intro o m i axis b e he
    have he := (List.mem_append.1 he).resolve_right (by simp)
    exact k.writer_of_state? w he (state?_place _ _ _ (Ne.symm (hfree _ he)))
  · intro y into' off hy
    by_cases hyid : id = y
    · subst hyid
      rw [state?_place_self _ _ _ hid] at hy
      obtain ⟨rfl, rfl⟩ := FusionState.optimized.inj (Option.some.inj hy)
      exact .inl (by simp)
    · rw [state?_place _ _ _ hyid] at hy
      rcases k.optimized_of_wiring w hy with h₁ | ⟨h₁, h₂, axis, h₃, hall⟩
      · exact .inl (List.mem_append_left _ h₁)
      · refine .inr ⟨h₁, h₂, axis, h₃, fun i m hi => ?_⟩
        obtain ⟨b, e, he⟩ := hall i m hi
        exact ⟨b, e, List.mem_append_left _ he⟩

/-- Slices for all the inputs of a concatenation: what a set of edges has to be for that. -/
structure Slices (g : Graph) (id : NodeId) (axis : Nat) (es : List SharingEdge) : Prop where
  once : Sharing.Once es
  slice : ∀ {e}, e ∈ es → ∃ i m before extent, e = ⟨id, m, .slice i axis before extent⟩ ∧
    g.input id i = .ok m
  all : ∀ {i m}, g.input id i = .ok m → ∃ before extent,
    ⟨id, m, .slice i axis before extent⟩ ∈ es

theorem addSlices (k : g.Linked) {s : FusionState} (hid : g.state? id = some s)
    (hs : s.isOptimized = false) {axis : Nat} {es : List SharingEdge} (hes : Slices g id axis es)
    (hfree : ∀ e ∈ g.sharing.edges, e.member ≠ id)
    (hnew : ∀ e ∈ es, ∀ e' ∈ g.sharing.edges, e'.member ≠ e.member)
    (hself : ∀ e ∈ es, id ≠ e.member) (hj : g.Joins id axis)
    (hwriter : ∀ e ∈ es, (∃ s, g.state? e.member = some s ∧ s.isOptimized = false) ∧
      g.consumers e.member = [id] ∧ g.isOutput e.member = false ∧ g.Writes e.member) :
    ((g.setSharing (g.sharing.commit es)).setState id (.optimized id 0)).Linked := by
  have w := (sameWiring_place g id (g.sharing.commit es) (.optimized id 0)).symm
  constructor
  · simp only [sharing_setState, sharing_setSharing, Sharing.edges_commit, Sharing.Once,
      List.map_append]
    refine List.nodup_append.2 ⟨k.once, hes.once, ?_⟩
    intro y hy z hz hyz
    obtain ⟨e', he', rfl⟩ := List.mem_map.1 hy
    obtain ⟨e, he, rfl⟩ := List.mem_map.1 hz
    exact hnew e he e' he' hyz
  · intro o m off he
    rcases List.mem_append.1 he with he | he
    · exact k.view_of_state? w he (state?_place _ _ _ (Ne.symm (hfree _ he)))
    · obtain ⟨i, m', b, e, heq, -⟩ := hes.slice he
      cases heq
  · intro o m i axis' b e he
    rcases List.mem_append.1 he with he | he
    · exact k.owner_of_state? w he (state?_place _ _ _ (ne_of_state? hid hs (k.owner he).1))
    · obtain ⟨i', m', b', e', heq, hin⟩ := hes.slice he
      cases heq
      exact ⟨state?_place_self _ _ _ hid, w.joins hj, w.input hin⟩
  · intro o m i axis' b e he
    rcases List.mem_append.1 he with he | he
    · exact k.writer_of_state? w he (state?_place _ _ _ (Ne.symm (hfree _ he)))
    · obtain ⟨i', m', b', e', heq, -⟩ := hes.slice he
      cases heq
      obtain ⟨h₁, h₂, h₃, h₄⟩ := hwriter _ he
      refine ⟨?_, (w.consumers_eq m) ▸ h₂, (w.isOutput_eq m) ▸ h₃, w.writes h₄⟩
      rwa [state?_place _ _ _ (hself _ he)]
  · intro y into' off hy
    by_cases hyid : id = y
    · subst hyid
      rw [state?_place_self _ _ _ hid] at hy
      obtain ⟨rfl, rfl⟩ := FusionState.optimized.inj (Option.some.inj hy)
      refine .inr ⟨rfl, rfl, axis, w.joins hj, fun i m hi => ?_⟩
      obtain ⟨b, e, he⟩ := hes.all (w.symm.input hi)
      exact ⟨b, e, List.mem_append_right _ he⟩
    · rw [state?_place _ _ _ hyid] at hy
      rcases k.optimized_of_wiring w hy with h₁ | ⟨h₁, h₂, axis, h₃, hall⟩
      · exact .inl (List.mem_append_left _ h₁)
      · refine .inr ⟨h₁, h₂, axis, h₃, fun i m hi => ?_⟩
        obtain ⟨b, e, he⟩ := hall i m hi
        exact ⟨b, e, List.mem_append_left _ he⟩

/-- A view that moves inside its producer's buffer. -/
theorem moveView (k : g.Linked) {into : NodeId} {offset : Nat}
    (hid : ∃ o, g.state? id = some (.optimized into o)) (hin : g.input id 0 = .ok into)
    (hj : ∀ axis, ¬ g.Joins id axis) :
    ((g.setSharing (g.sharing.refresh [⟨into, id, .view offset⟩]).1).setState id
      (.optimized into offset)).Linked := by
  obtain ⟨off₀, hid⟩ := hid
  have w := (sameWiring_place g id (g.sharing.refresh [⟨into, id, .view offset⟩]).1
    (.optimized into offset)).symm
  have hold := k.view_of_not_joins hid hj
  have hmem : ∀ {e}, e ∈ (g.sharing.refresh [⟨into, id, .view offset⟩]).1.edges ↔
      e = ⟨into, id, .view offset⟩ ∨ e ∈ g.sharing.edges ∧ e.ends ≠ (into, id) := by
    intro e
    rw [Sharing.mem_refresh k.once (by simp [Sharing.Once])]
    simp only [List.mem_singleton, forall_eq]
    refine or_congr_left (and_iff_left_of_imp ?_)
    rintro rfl
    exact ⟨_, hold, rfl⟩
  -- the node has no edge as a member but the one that moves
  have hother : ∀ {e}, e ∈ g.sharing.edges → e.ends ≠ (into, id) → id ≠ e.member := by
    rintro e he hne rfl
    exact hne (by rw [k.once.eq he hold rfl]; rfl)
  constructor
  · exact (Sharing.once_refresh _).2 k.once
  · intro o m off he
    rcases hmem.1 he with he | ⟨he, hne⟩
    · obtain ⟨rfl, rfl, hp⟩ := SharingEdge.mk.inj he
      obtain rfl := Placement.view.inj hp
      exact ⟨state?_place_self _ _ _ hid, w.input hin, fun axis hm => hj axis (w.symm.joins hm)⟩
    · exact k.view_of_state? w he (state?_place _ _ _ (hother he hne))
  · intro o m i axis b e he
    obtain ⟨he, -⟩ := (hmem.1 he).resolve_left (by simp)
    have hne : id ≠ o := by
      rintro rfl
      exact hj axis (k.owner he).2.1
    exact k.owner_of_state? w he (state?_place _ _ _ hne)
  · intro o m i axis b e he
    obtain ⟨he, hne⟩ := (hmem.1 he).resolve_left (by simp)
    exact k.writer_of_state? w he (state?_place _ _ _ (hother he hne))
  · intro y into' off hy
    by_cases hyid : id = y
    · subst hyid
      rw [state?_place_self _ _ _ hid] at hy
      obtain ⟨rfl, rfl⟩ := FusionState.optimized.inj (Option.some.inj hy)
      exact .inl (hmem.2 (.inl rfl))
    · rw [state?_place _ _ _ hyid] at hy
      rcases k.optimized_of_wiring w hy with h₁ | ⟨h₁, h₂, axis, h₃, hall⟩
      · refine .inl (hmem.2 (.inr ⟨h₁, ?_⟩))
        exact fun heq => hyid (congrArg (·.2) heq).symm
      · refine .inr ⟨h₁, h₂, axis, h₃, fun i m hi => ?_⟩
        obtain ⟨b, e, he⟩ := hall i m hi
        refine ⟨b, e, hmem.2 (.inr ⟨he, ?_⟩)⟩
        intro heq
        obtain rfl : m = id := congrArg (·.2) heq
        exact k.not_optimized he hid

/-- Slices that move inside the buffer of their concatenation. -/
theorem moveSlices (k : g.Linked) {axis : Nat} {es : List SharingEdge}
    (hid : g.state? id = some (.optimized id 0)) (hes : Slices g id axis es)
    (hj : g.Joins id axis) :
    ((g.setSharing (g.sharing.refresh es).1).setState id (.optimized id 0)).Linked := by
  have w := (sameWiring_place g id (g.sharing.refresh es).1 (.optimized id 0)).symm
  obtain ⟨-, -, hall⟩ := k.inPlace_of_joins hid hj
  have hmem : ∀ {e}, e ∈ (g.sharing.refresh es).1.edges ↔
      e ∈ es ∨ e ∈ g.sharing.edges ∧ ∀ u ∈ es, e.ends ≠ u.ends := by
    intro e
    rw [Sharing.mem_refresh k.once hes.once]
    refine or_congr_left (and_iff_left_of_imp fun he => ?_)
    obtain ⟨i, m, b, x, rfl, hin⟩ := hes.slice he
    obtain ⟨b', x', h⟩ := hall hin
    exact ⟨_, h, rfl⟩
  have hstate : ∀ y, ((g.setSharing (g.sharing.refresh es).1).setState id
      (.optimized id 0)).state? y = g.state? y := by
    intro y
    by_cases hy : id = y
    · subst hy
      rw [state?_place_self _ _ _ hid, hid]
    · exact state?_place _ _ _ hy
  -- an updated slice was one before, in the same place of its concatenation
  have hslice : ∀ {o m i a b x}, ⟨o, m, .slice i a b x⟩ ∈ (g.sharing.refresh es).1.edges →
      ∃ b' x', ⟨o, m, .slice i a b' x'⟩ ∈ g.sharing.edges := by
    intro o m i a b x he
    rcases hmem.1 he with he | ⟨he, -⟩
    · obtain ⟨i', m', b', x', heq, hin⟩ := hes.slice he
      cases heq
      exact hall hin
    · exact ⟨b, x, he⟩
  constructor
  · exact (Sharing.once_refresh _).2 k.once
  · intro o m off he
    rcases hmem.1 he with he | ⟨he, -⟩
    · obtain ⟨i', m', b', x', heq, hin⟩ := hes.slice he
      cases heq
    · exact k.view_of_state? w he (hstate m)
  · intro o m i a b x he
    obtain ⟨b', x', he⟩ := hslice he
    exact k.owner_of_state? w he (hstate o)
  · intro o m i a b x he
    obtain ⟨b', x', he⟩ := hslice he
    exact k.writer_of_state? w he (hstate m)
  · intro y into off hy
    rw [hstate] at hy
    rcases k.optimized_of_wiring w hy with h₁ | ⟨h₁, h₂, a, h₃, h₄⟩
    · refine .inl (hmem.2 (.inr ⟨h₁, fun u hu heq => ?_⟩))
      obtain ⟨i, m, b, x, rfl, hin⟩ := hes.slice hu
      obtain ⟨b', x', he⟩ := hall hin
      cases k.once.eq h₁ he (congrArg (·.2) heq)
    · refine .inr ⟨h₁, h₂, a, h₃, fun i m hi => ?_⟩
      obtain ⟨b, x, he⟩ := h₄ i m hi
      by_cases hu : ∃ u ∈ es, u.ends = (y, m)
      · obtain ⟨u, hu, heq⟩ := hu
        obtain ⟨i', m', b', x', rfl, hin⟩ := hes.slice hu
        obtain ⟨rfl, rfl⟩ := Prod.mk.inj heq
        obtain ⟨b'', x'', he'⟩ := hall hin
        obtain ⟨-, -, hp⟩ := SharingEdge.mk.inj (k.once.eq he he' rfl)
        obtain ⟨rfl, rfl, -⟩ := Placement.slice.inj hp
        exact ⟨b', x', hmem.2 (.inl hu)⟩
      · exact ⟨b, x, hmem.2 (.inr ⟨he, fun u hu' heq => hu ⟨u, hu', heq.symm⟩⟩)⟩

/-- Demoting an optimized node takes away its place and the slices that it hands out. -/
theorem demote (k : g.Linked) {into : NodeId} {offset : Nat}
    (hid : g.state? id = some (.optimized into offset)) : (Recheck.demote g id).Linked := by
  suffices ((g.setSharing (g.sharing.detach id)).setState id
      (.rejected .runtimeShapeMismatch)).Linked from
    this.congr (sameWiring_setAssumption ..).symm (fun x => state?_setAssumption ..) rfl
  have w := (sameWiring_place g id (g.sharing.detach id) (.rejected .runtimeShapeMismatch)).symm
  have hview : ∀ {o m off}, ⟨o, m, .view off⟩ ∈ (g.sharing.detach id).edges ↔
      ⟨o, m, .view off⟩ ∈ g.sharing.edges ∧ m ≠ id := by
    simp [Sharing.lendsTo, Placement.isSlice, Placement.isView]
  have hslice : ∀ {o m i a b x}, ⟨o, m, .slice i a b x⟩ ∈ (g.sharing.detach id).edges ↔
      ⟨o, m, .slice i a b x⟩ ∈ g.sharing.edges ∧ m ≠ id ∧ o ≠ id := by
    simp [Sharing.lendsTo, Placement.isSlice, Placement.isView]
  constructor
  · exact k.once.filter _
  · intro o m off he
    obtain ⟨he, hne⟩ := hview.1 he
    exact k.view_of_state? w he (state?_place _ _ _ hne.symm)
  · intro o m i a b x he
    obtain ⟨he, -, hne⟩ := hslice.1 he
    exact k.owner_of_state? w he (state?_place _ _ _ hne.symm)
  · intro o m i a b x he
    obtain ⟨he, hne, -⟩ := hslice.1 he
    exact k.writer_of_state? w he (state?_place _ _ _ hne.symm)
  · intro y into' off hy
    by_cases hyid : id = y
    · subst hyid
      rw [state?_place_self _ _ _ hid] at hy
      cases Option.some.inj hy
    · rw [state?_place _ _ _ hyid] at hy
      rcases k.optimized_of_wiring w hy with h₁ | ⟨h₁, h₂, a, h₃, hall⟩
      · exact .inl (hview.2 ⟨h₁, Ne.symm hyid⟩)
      · refine .inr ⟨h₁, h₂, a, h₃, fun i m hi => ?_⟩
        obtain ⟨b, x, he⟩ := hall i m hi
        refine ⟨b, x, hslice.2 ⟨he, ?_, Ne.symm hyid⟩⟩
        rintro rfl
        exact k.not_optimized he hid

end Linked
end BufferFusion.Graph
