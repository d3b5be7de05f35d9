import Mathlib.Data.List.Sort
import BufferFusion.Proofs.Graph.Reach
import BufferFusion.Proofs.Sharing.Groups

/-!
# Components in order

Each group is the component of its least node, and the groups stand in the order of these nodes. The
sweep over the ascending nodes meets a component at its least node and passes over the others.
-/
namespace BufferFusion.Sharing

open Relation

variable {edges : List SharingEdge} {ids : List NodeId} {found : List (List NodeId)} {x y : NodeId}

theorem pairwise_component (edges : List SharingEdge) (id : NodeId) :
    (component edges id).Pairwise (· < ·) := Ascending.pairwise_ofList _

/-- No node that edges connect the node to is less than it. -/
def Leads (edges : List SharingEdge) (x : NodeId) : Prop := ∀ y, Connected edges x y → x ≤ y

/-- Every node that one of `ids` is connected to is one of them or is found. -/
def Covered (edges : List SharingEdge) (ids : List NodeId) (found : List (List NodeId)) : Prop :=
  ∀ x ∈ ids, ∀ y, Connected edges x y → y ∈ ids ∨ ∃ m ∈ found, y ∈ m

/-- They stay covered where the first of them is found. -/
theorem Covered.tail {found' : List (List NodeId)} {id : NodeId}
    (h : Covered edges (id :: ids) found) (hsub : ∀ m ∈ found, m ∈ found')
    (hid : ∃ m ∈ found', id ∈ m) : Covered edges ids found' := by
  intro x hx y hxy
  rcases h x (List.mem_cons_of_mem _ hx) y hxy with hy | ⟨m, hm, hy⟩
  · rcases List.mem_cons.1 hy with rfl | hy
    · exact .inr hid
    · exact .inl hy
  · exact .inr ⟨m, hsub m hm, hy⟩

/-- The first of covered ascending nodes leads its component, if it is in none that is found. -/
theorem Covered.leads {id : NodeId} (h : Covered edges (id :: ids) found) (hlt : ∀ x ∈ ids, id < x)
    (hfound : ∀ m ∈ found, ∃ z, m = component edges z) (hnew : ∀ m ∈ found, id ∉ m) :
    Leads edges id := by
  intro y hy
  rcases h id List.mem_cons_self y hy with hy' | ⟨m, hm, hy'⟩
  · rcases List.mem_cons.1 hy' with rfl | hy'
    · exact Nat.le_refl _
    · exact Nat.le_of_lt (hlt y hy')
  · obtain ⟨z, rfl⟩ := hfound m hm
    exact absurd (mem_component.2 ((mem_component.1 hy').trans hy.symm)) (hnew _ hm)

/-- Sweeping over ascending nodes adds the components of those that lead them and are in none that
is found. -/
theorem components_eq (hids : ids.Pairwise (· < ·)) (hfound : ∀ m ∈ found, ∃ z, m = component edges z)
    (hcovered : Covered edges ids found) :
    ∃ leaders, List.Sublist leaders ids ∧
      (∀ x, x ∈ leaders ↔ x ∈ ids ∧ (∀ m ∈ found, x ∉ m) ∧ Leads edges x) ∧
      components edges ids found = found.reverse ++ leaders.map (component edges) := by
  induction ids generalizing found with
  | nil => exact ⟨[], .slnil, by simp, by simp [components]⟩
  | cons id ids ih =>
    obtain ⟨hlt, hids⟩ := List.pairwise_cons.1 hids
    simp only [components]
    split
    · next hany =>
      obtain ⟨m, hm, hid⟩ : ∃ m ∈ found, id ∈ m := by simpa using hany
      obtain ⟨leaders, hsub, hmem, heq⟩ := ih hids hfound (hcovered.tail (fun _ h => h) ⟨m, hm, hid⟩)
      refine ⟨leaders, hsub.cons id, fun x => ?_, heq⟩
      rw [hmem, List.mem_cons]
      refine ⟨fun h => ⟨.inr h.1, h.2⟩, fun h => ⟨h.1.resolve_left ?_, h.2⟩⟩
      rintro rfl
      exact h.2.1 m hm hid
    · next hany =>
      have hnew : ∀ m ∈ found, id ∉ m := by simpa using hany
      have hleads := hcovered.leads hlt hfound hnew
      obtain ⟨leaders, hsub, hmem, heq⟩ := ih hids (List.forall_mem_cons.2 ⟨⟨id, rfl⟩, hfound⟩)
        (hcovered.tail (fun _ => List.mem_cons_of_mem _)
          ⟨_, List.mem_cons_self, self_mem_component edges id⟩)
      refine ⟨id :: leaders, hsub.cons_cons id, fun x => ?_, by simp [heq]⟩
      rw [List.mem_cons, hmem, List.mem_cons, List.forall_mem_cons]
      constructor
      · rintro (rfl | ⟨hx, ⟨-, hx'⟩, hleads'⟩)
        · exact ⟨.inl rfl, hnew, hleads⟩
        · exact ⟨.inr hx, hx', hleads'⟩
      · rintro ⟨rfl | hx, hx', hleads'⟩
        · exact .inl rfl
        · -- a later node of the component does not lead it
          refine .inr ⟨hx, ⟨fun hin => ?_, hx'⟩, hleads'⟩
          exact Nat.not_le_of_lt (hlt x hx) (hleads' id (mem_component.1 hin).symm)

/-- Where edges join different nodes, they name those that are connected to another. -/
theorem mem_nodes_iff (hne : ∀ e ∈ edges, e.owner ≠ e.member) :
    x ∈ nodes ⟨edges⟩ ↔ ∃ y, y ≠ x ∧ Connected edges x y := by
  rw [mem_nodes]
  constructor
  · rintro ⟨e, he, rfl | rfl⟩
    · exact ⟨e.member, (hne e he).symm, .single ⟨e, he, .inl ⟨rfl, rfl⟩⟩⟩
    · exact ⟨e.owner, hne e he, .single ⟨e, he, .inr ⟨rfl, rfl⟩⟩⟩
  · rintro ⟨y, hy, hxy⟩
    obtain rfl | ⟨z, ⟨e, he, hends⟩, -⟩ := hxy.cases_head
    · exact absurd rfl hy
    · exact ⟨e, he, hends.imp And.left And.right⟩

/-- The groups are the components of more than one node, in the order of the nodes that lead them. -/
theorem groups_eq (hne : ∀ e ∈ edges, e.owner ≠ e.member) :
    ∃ leaders : List NodeId, leaders.Pairwise (· < ·) ∧
      (∀ x, x ∈ leaders ↔ (∃ y, y ≠ x ∧ Connected edges x y) ∧ Leads edges x) ∧
      groups ⟨edges⟩ = leaders.map (component edges) := by
  have hids : (nodes ⟨edges⟩).Pairwise (· < ·) := Ascending.pairwise_ofList _
  have hcovered : Covered edges (nodes ⟨edges⟩) [] := by
    intro x hx y hxy
    by_cases he : x = y
    · exact .inl (he ▸ hx)
    · exact .inl ((mem_nodes_iff hne).2 ⟨x, he, hxy.symm⟩)
  obtain ⟨leaders, hsub, hmem, heq⟩ := components_eq hids (by simp) hcovered
  refine ⟨leaders, hids.sublist hsub, fun x => ?_, heq⟩
  rw [hmem, mem_nodes_iff hne]
  simp

end BufferFusion.Sharing
