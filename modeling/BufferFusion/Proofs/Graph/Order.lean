import BufferFusion.Graph.Order
import BufferFusion.Proofs.Graph.Reach

/-!
# Topological order

The order that a graph is walked in has every node once and after its producers. Along the walk
the stack holds every node that is ready and not yet listed; a node that is never listed would
have a producer that is never listed, and so on down the ranks.
-/
namespace BufferFusion.Graph

variable {g : Graph} {done ids stack : List NodeId} {id : NodeId}

/-- `ids` are nodes that `done` leaves, each once and after its producers. -/
def Ordered (g : Graph) : List NodeId → List NodeId → Prop
  | _, [] => True
  | done, id :: ids =>
    id ∉ done ∧ g.contains id = true ∧ (∀ p, g.Feeds p id → p ∈ done) ∧ Ordered g (id :: done) ids

theorem Ordered.append_singleton (h : g.Ordered done ids) (hnew : id ∉ done) (hids : id ∉ ids)
    (hlive : g.contains id = true) (hready : ∀ p, g.Feeds p id → p ∈ done ∨ p ∈ ids) :
    g.Ordered done (ids ++ [id]) := by
  induction ids generalizing done with
  | nil => exact ⟨hnew, hlive, fun p hp => by simpa using hready p hp, trivial⟩
  | cons x ids ih =>
    obtain ⟨hx, hxl, hxr, hrest⟩ := h
    rw [List.mem_cons, not_or] at hids
    refine ⟨hx, hxl, hxr, ih hrest ?_ hids.2 ?_⟩
    · simp [hids.1, hnew]
    · intro p hp
      have := hready p hp
      simp only [List.mem_cons] at this ⊢
      tauto

theorem Ordered.nodup (h : g.Ordered done ids) : ids.Nodup ∧ ∀ x ∈ ids, x ∉ done := by
  induction ids generalizing done with
  | nil => simp
  | cons id ids ih =>
    obtain ⟨hnew, -, -, hrest⟩ := h
    obtain ⟨hnodup, hdisj⟩ := ih hrest
    refine ⟨List.nodup_cons.2 ⟨fun hid => hdisj id hid List.mem_cons_self, hnodup⟩, ?_⟩
    intro x hx
    rcases List.mem_cons.1 hx with rfl | hx
    · exact hnew
    · exact fun hxd => hdisj x hx (List.mem_cons_of_mem _ hxd)

theorem Ordered.live (h : g.Ordered done ids) : ∀ x ∈ ids, g.contains x = true := by
  induction ids generalizing done with
  | nil => simp
  | cons id ids ih =>
    obtain ⟨-, hlive, -, hrest⟩ := h
    intro x hx
    rcases List.mem_cons.1 hx with rfl | hx
    · exact hlive
    · exact ih hrest x hx

/-- What the walk keeps: `done` is an order, newest first, and the stack has the ready nodes. -/
structure Walk (g : Graph) (stack done : List NodeId) : Prop where
  ordered : g.Ordered [] done.reverse
  ready : ∀ id ∈ stack, g.contains id = true ∧ ∀ p, g.Feeds p id → p ∈ done
  complete : ∀ id, g.contains id = true → (∀ p, g.Feeds p id → p ∈ done) → id ∉ done →
    id ∈ stack

theorem Sound.isReady_iff (h : g.Sound) :
    g.isReady done id = true ↔ ∀ p, g.Feeds p id → p ∈ done := by
  simp [isReady, h.mem_incoming_iff]

theorem Sound.mem_pushReady (h : g.Sound) {x : NodeId} : x ∈ g.pushReady done id stack ↔
    (g.Feeds id x ∧ ∀ p, g.Feeds p x → p ∈ done) ∨ x ∈ stack := by
  simp [pushReady, List.mem_eraseDups, h.mem_outgoing_iff, h.isReady_iff]

theorem Sound.walk_roots (h : g.Sound) : g.Walk g.roots.reverse [] := by
  have hroots : ∀ id, id ∈ g.roots ↔ g.contains id = true ∧ ∀ p, ¬ g.Feeds p id := by
    intro id
    simp only [roots, List.mem_map, List.mem_filter, List.isEmpty_iff,
      List.eq_nil_iff_forall_not_mem, h.mem_incoming_iff]
    constructor
    · rintro ⟨n, ⟨hn, hp⟩, rfl⟩
      exact ⟨contains_iff.2 ⟨n, h.node_of_mem hn⟩, hp⟩
    · rintro ⟨hlive, hp⟩
      obtain ⟨n, hn⟩ := contains_iff.1 hlive
      have hid := h.id_eq hn
      exact ⟨n, ⟨mem_nodes.2 ⟨id, hn⟩, hid ▸ hp⟩, hid⟩
  refine ⟨trivial, ?_, ?_⟩
  · intro id hid
    obtain ⟨hlive, hp⟩ := (hroots id).1 (List.mem_reverse.1 hid)
    exact ⟨hlive, fun p hf => absurd hf (hp p)⟩
  · intro id hlive hp _
    exact List.mem_reverse.2 ((hroots id).2 ⟨hlive, fun p hf => by simpa using hp p hf⟩)

theorem Walk.skip (h : g.Walk (id :: stack) done) (hid : id ∈ done) : g.Walk stack done := by
  refine ⟨h.ordered, fun x hx => h.ready x (List.mem_cons_of_mem _ hx), ?_⟩
  intro x hlive hp hx
  rcases List.mem_cons.1 (h.complete x hlive hp hx) with rfl | hs
  · exact absurd hid hx
  · exact hs

theorem Walk.visit (hs : g.Sound) (h : g.Walk (id :: stack) done) (hid : id ∉ done) :
    g.Walk (g.pushReady (id :: done) id stack) (id :: done) := by
  obtain ⟨hlive, hready⟩ := h.ready id List.mem_cons_self
  refine ⟨?_, ?_, ?_⟩
  · rw [List.reverse_cons]
    exact h.ordered.append_singleton (List.not_mem_nil) (by simpa using hid) hlive
      fun p hp => .inr (List.mem_reverse.2 (hready p hp))
  · intro x hx
    rcases hs.mem_pushReady.1 hx with ⟨hf, hp⟩ | hx
    · exact ⟨hf.contains_right, hp⟩
    · obtain ⟨hl, hp⟩ := h.ready x (List.mem_cons_of_mem _ hx)
      exact ⟨hl, fun p hf => List.mem_cons_of_mem _ (hp p hf)⟩
  · intro x hxl hp hx
    rw [List.mem_cons, not_or] at hx
    by_cases hf : g.Feeds id x
    · exact hs.mem_pushReady.2 (.inl ⟨hf, hp⟩)
    · have hold : ∀ p, g.Feeds p x → p ∈ done := by
        intro p hpx
        refine (List.mem_cons.1 (hp p hpx)).resolve_left ?_
        rintro rfl
        exact hf hpx
      have := (List.mem_cons.1 (h.complete x hxl hold hx.2)).resolve_left hx.1
      exact hs.mem_pushReady.2 (.inr this)

/-- The edges that can still push a node: those from nodes not yet listed. -/
def edgesLeft (g : Graph) (done : List NodeId) : Nat :=
  g.edges.countP fun e => !done.contains e.producer

theorem edgesLeft_nil : g.edgesLeft [] = g.edges.length := by simp [edgesLeft]

/-- The edges from a node that is listed now push no longer. -/
theorem edgesLeft_cons (hid : id ∉ done) :
    g.edges.countP (·.producer == id) + g.edgesLeft (id :: done) ≤ g.edgesLeft done := by
  simp only [edgesLeft]
  induction g.edges with
  | nil => simp
  | cons e es ih =>
    simp only [List.countP_cons, List.contains_cons, Bool.not_or] at ih ⊢
    by_cases he : e.producer = id
    · have hdone : done.contains e.producer = false := by simpa [he] using hid
      simp only [he ▸ hdone, he, beq_self_eq_true, Bool.not_true, Bool.false_and,
        Bool.not_false, Bool.false_eq_true, if_true, if_false]
      omega
    · have hne : (e.producer == id) = false := by simpa using he
      simp only [hne, Bool.not_false, Bool.true_and, Bool.false_eq_true, if_false]
      omega

theorem length_roots_le (g : Graph) : g.roots.length ≤ g.slots.length := by
  rw [roots, List.length_map]
  exact (List.length_filter_le _ _).trans (List.length_filterMap_le _ _)

theorem length_outgoing (g : Graph) (id : NodeId) :
    (g.outgoing id).length = g.edges.countP (·.producer == id) := by
  simp [outgoing, List.countP_eq_length_filter]

theorem length_pushReady_le (hid : id ∉ done) :
    (g.pushReady (id :: done) id stack).length + g.edgesLeft (id :: done) ≤
      stack.length + g.edgesLeft done := by
  have hpush : ((g.outgoing id).reverse.eraseDups.filter (g.isReady (id :: done))).length ≤
      g.edges.countP (·.producer == id) := by
    calc ((g.outgoing id).reverse.eraseDups.filter (g.isReady (id :: done))).length
        ≤ (g.outgoing id).reverse.eraseDups.length := List.length_filter_le _ _
      _ ≤ (g.outgoing id).reverse.length := by
          refine (List.subperm_of_subset (eraseDups_nodup _) ?_).length_le
          exact fun x hx => List.mem_eraseDups.1 hx
      _ = g.edges.countP (·.producer == id) := by rw [List.length_reverse, length_outgoing]
  have hcount := edgesLeft_cons (g := g) hid
  rw [pushReady, List.length_append]
  omega

theorem Walk.orderFrom (hs : g.Sound) {fuel : Nat} (h : g.Walk stack done)
    (hfuel : stack.length + g.edgesLeft done ≤ fuel) : g.Walk [] (g.orderFrom fuel stack done) := by
  induction fuel generalizing stack done with
  | zero =>
    obtain rfl : stack = [] := List.eq_nil_of_length_eq_zero (by omega)
    exact h
  | succ fuel ih =>
    cases stack with
    | nil => exact h
    | cons id stack =>
      simp only [Graph.orderFrom]
      rw [List.length_cons] at hfuel
      split
      · next hid => exact ih (h.skip (by simpa using hid)) (by omega)
      · next hid =>
        have hid : id ∉ done := by simpa using hid
        have := @length_pushReady_le g done stack id hid
        exact ih (h.visit hs hid) (by omega)

theorem Sound.walk_order (h : g.Sound) : g.Walk [] g.order.reverse := by
  rw [Graph.order, List.reverse_reverse]
  refine h.walk_roots.orderFrom h ?_
  have hroots := length_roots_le g
  rw [List.length_reverse, edgesLeft_nil]
  omega

/-- The order of a graph has every node after its producers. -/
theorem Sound.ordered (h : g.Sound) : g.Ordered [] g.order := by
  simpa using h.walk_order.ordered

/-- Every node is listed: the first one that is not would be ready. -/
theorem Sound.mem_order (h : g.Sound) : id ∈ g.order ↔ g.contains id = true := by
  refine ⟨h.ordered.live id, ?_⟩
  induction id using h.feeds_induction with
  | step id ih =>
    intro hlive
    by_contra hid
    have := h.walk_order.complete id hlive
      (fun p hp => List.mem_reverse.2 (ih p hp (h.live hp))) (by simpa using hid)
    simp at this

theorem Sound.order_nodup (h : g.Sound) : g.order.Nodup := h.ordered.nodup.1

end BufferFusion.Graph
