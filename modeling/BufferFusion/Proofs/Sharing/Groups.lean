import Mathlib.Logic.Relation
import BufferFusion.Sharing.Basic

/-!
# Groups

The component of a node is what its edges connect it to. The groups are the components of the nodes
that edges name: every such node is in one of them, and two of them have no node in common.
-/
namespace BufferFusion.Sharing

open Relation

variable {all edges near far : List SharingEdge} {frontier seen ids : List NodeId} {id x y : NodeId}

/-- An edge joins the two nodes. -/
def Adjacent (edges : List SharingEdge) (a b : NodeId) : Prop :=
  ∃ e ∈ edges, (e.owner = a ∧ e.member = b) ∨ (e.owner = b ∧ e.member = a)

/-- A chain of edges leads from the one node to the other. -/
def Connected (edges : List SharingEdge) : NodeId → NodeId → Prop := ReflTransGen (Adjacent edges)

theorem Adjacent.symm (h : Adjacent edges x y) : Adjacent edges y x := by
  obtain ⟨e, he, h⟩ := h
  exact ⟨e, he, h.symm⟩

theorem Connected.symm (h : Connected edges x y) : Connected edges y x := by
  induction h with
  | refl => exact .refl
  | tail _ hadj ih => exact .head hadj.symm ih

theorem mem_beyond : x ∈ beyond frontier edges ↔
    (∃ e ∈ edges, e.owner = x ∨ e.member = x) ∧ x ∉ frontier := by
  simp only [beyond, Ascending.mem_ofList, List.mem_filter, List.mem_flatMap, List.mem_cons,
    List.not_mem_nil, or_false, Bool.not_eq_true', List.contains_eq_mem, decide_eq_false_iff_not]
  refine and_congr_left fun _ => exists_congr fun e => and_congr_right fun _ => ?_
  exact or_congr eq_comm eq_comm

theorem touches_iff {e : SharingEdge} : e.touches x = true ↔ e.owner = x ∨ e.member = x := by
  simp [SharingEdge.touches]

theorem mem_near {e : SharingEdge} :
    e ∈ (edges.partition fun e => frontier.any e.touches).1 ↔
      e ∈ edges ∧ ∃ x ∈ frontier, e.owner = x ∨ e.member = x := by
  simp [List.partition_eq_filter_filter, touches_iff]

theorem mem_far {e : SharingEdge} :
    e ∈ (edges.partition fun e => frontier.any e.touches).2 ↔
      e ∈ edges ∧ ∀ x ∈ frontier, ¬ (e.owner = x ∨ e.member = x) := by
  simp [List.partition_eq_filter_filter, SharingEdge.touches]

/-- Growing reaches connected nodes only. -/
theorem connected_of_mem_grow {rounds : Nat} (hsub : ∀ e ∈ edges, e ∈ all)
    (hfrontier : ∀ a ∈ frontier, Connected all id a) (hseen : ∀ a ∈ seen, Connected all id a)
    (hx : x ∈ grow rounds frontier edges seen) : Connected all id x := by
  induction rounds generalizing frontier edges seen with
  | zero => exact hseen x hx
  | succ rounds ih =>
    simp only [grow] at hx
    split at hx
    · exact hseen x hx
    next new hnew =>
    have hreach : ∀ a ∈ beyond frontier (edges.partition fun e => frontier.any e.touches).1,
        Connected all id a := by
      intro a ha
      obtain ⟨⟨e, he, hend⟩, hout⟩ := mem_beyond.1 ha
      obtain ⟨hmem, c, hc, htouch⟩ := mem_near.1 he
      refine (hfrontier c hc).tail ⟨e, hsub e hmem, ?_⟩
      rcases hend with rfl | rfl <;> rcases htouch with rfl | rfl
      · exact absurd hc hout
      · exact .inr ⟨rfl, rfl⟩
      · exact .inl ⟨rfl, rfl⟩
      · exact absurd hc hout
    refine ih (fun e he => hsub e (mem_far.1 he).1) hreach (fun a ha => ?_) hx
    rcases List.mem_append.1 ha with ha | ha
    · exact hreach a ha
    · exact hseen a ha

/-- What is left to use while growing: an edge is inside what is seen, or it is still to be used and
touches what is seen in the frontier only. -/
structure Growing (all : List SharingEdge) (frontier : List NodeId) (edges : List SharingEdge)
    (seen : List NodeId) : Prop where
  inside : ∀ a ∈ frontier, a ∈ seen
  used : ∀ e ∈ all, (e.owner ∈ seen ∧ e.member ∈ seen) ∨
    (e ∈ edges ∧ ((e.owner ∈ seen → e.owner ∈ frontier ∨ e.member ∈ frontier) ∧
      (e.member ∈ seen → e.owner ∈ frontier ∨ e.member ∈ frontier)))

/-- The frontier's edges lead into the frontier and what lies beyond it. -/
theorem mem_or_mem_beyond {e : SharingEdge} {a : NodeId} (he : e ∈ edges)
    (htouch : e.owner ∈ frontier ∨ e.member ∈ frontier) (ha : e.owner = a ∨ e.member = a) :
    a ∈ frontier ∨ a ∈ beyond frontier (edges.partition fun e => frontier.any e.touches).1 := by
  by_cases hin : a ∈ frontier
  · exact .inl hin
  · refine .inr (mem_beyond.2 ⟨⟨e, mem_near.2 ⟨he, ?_⟩, ha⟩, hin⟩)
    rcases htouch with h | h
    · exact ⟨_, h, .inl rfl⟩
    · exact ⟨_, h, .inr rfl⟩

/-- Where nothing lies beyond the frontier, no edge leads out of what is seen. -/
theorem Growing.closed (k : Growing all frontier edges seen)
    (hnil : beyond frontier (edges.partition fun e => frontier.any e.touches).1 = []) :
    ∀ e ∈ all, (e.owner ∈ seen ↔ e.member ∈ seen) := by
  intro e he
  rcases k.used e he with h | ⟨hmem, h₁, h₂⟩
  · exact iff_of_true h.1 h.2
  · have hall : (e.owner ∈ frontier ∨ e.member ∈ frontier) → e.owner ∈ seen ∧ e.member ∈ seen := by
      intro htouch
      have h₁ := mem_or_mem_beyond hmem htouch (.inl rfl)
      have h₂ := mem_or_mem_beyond hmem htouch (.inr rfl)
      rw [hnil] at h₁ h₂
      simp only [List.not_mem_nil, or_false] at h₁ h₂
      exact ⟨k.inside _ h₁, k.inside _ h₂⟩
    exact ⟨fun h => (hall (h₁ h)).2, fun h => (hall (h₂ h)).1⟩

/-- One round: the edges that touch the frontier are used, and what lies beyond is the new one. -/
theorem Growing.next (k : Growing all frontier edges seen) :
    Growing all (beyond frontier (edges.partition fun e => frontier.any e.touches).1)
      (edges.partition fun e => frontier.any e.touches).2
      (beyond frontier (edges.partition fun e => frontier.any e.touches).1 ++ seen) := by
  refine ⟨fun a ha => List.mem_append_left _ ha, fun e he => ?_⟩
  rcases k.used e he with h | ⟨hmem, h₁, h₂⟩
  · exact .inl ⟨List.mem_append_right _ h.1, List.mem_append_right _ h.2⟩
  by_cases htouch : e.owner ∈ frontier ∨ e.member ∈ frontier
  · have hseen : ∀ a, (e.owner = a ∨ e.member = a) →
        a ∈ beyond frontier (edges.partition fun e => frontier.any e.touches).1 ++ seen := by
      intro a ha
      rcases mem_or_mem_beyond hmem htouch ha with h | h
      · exact List.mem_append_right _ (k.inside a h)
      · exact List.mem_append_left _ h
    exact .inl ⟨hseen _ (.inl rfl), hseen _ (.inr rfl)⟩
  · refine .inr ⟨mem_far.2 ⟨hmem, ?_⟩, fun h => ?_, fun h => ?_⟩
    · rintro a ha (rfl | rfl)
      · exact htouch (.inl ha)
      · exact htouch (.inr ha)
    · exact (List.mem_append.1 h).elim .inl fun h => absurd (h₁ h) htouch
    · exact (List.mem_append.1 h).elim .inr fun h => absurd (h₂ h) htouch

/-- A round that finds something has used up an edge. -/
theorem length_far_lt
    (hnew : beyond frontier (edges.partition fun e => frontier.any e.touches).1 ≠ []) :
    (edges.partition fun e => frontier.any e.touches).2.length < edges.length := by
  obtain ⟨a, ha⟩ := List.exists_mem_of_ne_nil _ hnew
  obtain ⟨⟨e, he, -⟩, -⟩ := mem_beyond.1 ha
  obtain ⟨hmem, c, hc, htouch⟩ := mem_near.1 he
  rw [List.partition_eq_filter_filter]
  refine List.length_filter_lt_length_iff_exists.2 ⟨e, hmem, ?_⟩
  simpa using ⟨c, hc, touches_iff.2 htouch⟩

/-- With as many rounds as edges, growing ends where no edge leads out. -/
theorem grow_closed {rounds : Nat} (k : Growing all frontier edges seen)
    (hrounds : edges.length ≤ rounds) : ∀ e ∈ all,
      (e.owner ∈ grow rounds frontier edges seen ↔ e.member ∈ grow rounds frontier edges seen) := by
  induction rounds generalizing frontier edges seen with
  | zero =>
    intro e he
    have hnil : edges = [] := List.eq_nil_of_length_eq_zero (Nat.le_zero.1 hrounds)
    rcases k.used e he with h | ⟨h, -⟩
    · exact iff_of_true h.1 h.2
    · rw [hnil] at h
      cases h
  | succ rounds ih =>
    simp only [grow]
    split
    · next hnil => exact k.closed hnil
    · next hnew =>
      have hlt := length_far_lt hnew
      exact ih k.next (by omega)

theorem mem_component : x ∈ component edges id ↔ Connected edges id x := by
  rw [component, Ascending.mem_ofList]
  constructor
  · refine connected_of_mem_grow (fun e he => he) ?_ ?_
    all_goals
      intro a ha
      obtain rfl := List.mem_singleton.1 ha
      exact .refl
  · intro h
    have k : Growing edges [id] edges [id] :=
      ⟨fun a ha => ha, fun e he => .inr ⟨he, fun h => .inl h, fun h => .inr h⟩⟩
    have hclosed := grow_closed k (Nat.le_refl _)
    induction h with
    | refl => exact mem_grow_of_mem (List.mem_singleton_self _)
    | tail _ hadj ih =>
      obtain ⟨e, he, ⟨rfl, rfl⟩ | ⟨rfl, rfl⟩⟩ := hadj
      · exact (hclosed e he).1 ih
      · exact (hclosed e he).2 ih

variable {m : List NodeId} {found : List (List NodeId)}

theorem mem_components_of_found (h : m ∈ found) : m ∈ components edges ids found := by
  induction ids generalizing found with
  | nil => exact List.mem_reverse.2 h
  | cons id ids ih =>
    simp only [components]
    split
    · exact ih h
    · exact ih (List.mem_cons_of_mem _ h)

/-- The components of a list of nodes are components. -/
theorem mem_components (h : m ∈ components edges ids found) :
    m ∈ found ∨ ∃ x ∈ ids, m = component edges x := by
  induction ids generalizing found with
  | nil => exact .inl (List.mem_reverse.1 h)
  | cons id ids ih =>
    simp only [components] at h
    split at h
    · rcases ih h with h | ⟨x, hx, rfl⟩
      · exact .inl h
      · exact .inr ⟨x, List.mem_cons_of_mem _ hx, rfl⟩
    · rcases ih h with h | ⟨x, hx, rfl⟩
      · rcases List.mem_cons.1 h with rfl | h
        · exact .inr ⟨id, List.mem_cons_self, rfl⟩
        · exact .inl h
      · exact .inr ⟨x, List.mem_cons_of_mem _ hx, rfl⟩

/-- Each node of the list is in one of them. -/
theorem exists_mem_components (hx : x ∈ ids) : ∃ m ∈ components edges ids found, x ∈ m := by
  induction ids generalizing found with
  | nil => cases hx
  | cons id ids ih =>
    simp only [components]
    split
    · next hany =>
      rcases List.mem_cons.1 hx with rfl | hx
      · obtain ⟨m, hm, hmem⟩ := List.any_eq_true.1 hany
        exact ⟨m, mem_components_of_found hm, by simpa using hmem⟩
      · exact ih hx
    · rcases List.mem_cons.1 hx with rfl | hx
      · exact ⟨_, mem_components_of_found List.mem_cons_self, self_mem_component ..⟩
      · exact ih hx

/-- The ends of an edge are in one group. -/
theorem mem_nodes : x ∈ nodes ⟨edges⟩ ↔ ∃ e ∈ edges, e.owner = x ∨ e.member = x := by
  simp only [nodes, Ascending.mem_ofList, List.mem_flatMap, List.mem_cons, List.not_mem_nil,
    or_false]
  refine exists_congr fun e => and_congr_right fun _ => ?_
  exact or_congr eq_comm eq_comm

end BufferFusion.Sharing
