import Mathlib.Data.List.Perm.Subperm
import Mathlib.Data.List.TakeWhile
import BufferFusion.Proofs.Graph.Sound

/-!
# Reachability

The search along data edges finds exactly the nodes there is a path to. A round that goes on finds
a new node, so as many rounds as there are ids are enough.
-/
namespace BufferFusion

open Relation

theorem eraseDups_nodup {α : Type} [BEq α] [LawfulBEq α] (xs : List α) : xs.eraseDups.Nodup := by
  induction hk : xs.length using Nat.strongRecOn generalizing xs with
  | ind k ih =>
    cases xs with
    | nil => simp
    | cons x xs =>
      subst hk
      rw [List.eraseDups_cons, List.nodup_cons]
      refine ⟨by simp [List.mem_eraseDups], ih _ ?_ _ rfl⟩
      exact Nat.lt_succ_of_le (List.length_filter_le _ _)

namespace Ascending

theorem pairwise_insert {id : NodeId} {xs : List NodeId} (h : xs.Pairwise (· < ·)) :
    (insert id xs).Pairwise (· < ·) := by
  induction xs with
  | nil => simp [insert]
  | cons x xs ih =>
    obtain ⟨hx, hxs⟩ := List.pairwise_cons.1 h
    simp only [insert]
    split
    · next hlt =>
      refine List.pairwise_cons.2 ⟨fun y hy => ?_, h⟩
      rcases List.mem_cons.1 hy with rfl | hy
      · exact hlt
      · exact Nat.lt_trans hlt (hx y hy)
    · split
      · exact h
      · next hlt hne =>
        refine List.pairwise_cons.2 ⟨fun y hy => ?_, ih hxs⟩
        rcases mem_insert.1 hy with rfl | hy
        · exact Nat.lt_of_le_of_ne (Nat.le_of_not_lt hlt) (Ne.symm hne)
        · exact hx y hy

theorem pairwise_ofList (ids : List NodeId) : (ofList ids).Pairwise (· < ·) := by
  induction ids with
  | nil => exact .nil
  | cons id ids ih => exact pairwise_insert ih

end Ascending

namespace Closure

variable {next : NodeId → List NodeId} {frontier seen : List NodeId} {id : NodeId}

theorem mem_fresh : id ∈ fresh next frontier seen ↔
    id ∉ seen ∧ ∃ a ∈ frontier, id ∈ next a := by
  simp [fresh, List.mem_eraseDups, and_comm]

/-- What is seen is reached. -/
theorem reached_of_mem_spread {start : NodeId} {rounds : Nat}
    (hseen : ∀ x ∈ seen, ReflTransGen (fun a b => b ∈ next a) start x)
    (hsub : ∀ x ∈ frontier, x ∈ seen) (h : id ∈ spread next rounds frontier seen) :
    ReflTransGen (fun a b => b ∈ next a) start id := by
  induction rounds generalizing frontier seen with
  | zero => exact hseen _ h
  | succ rounds ih =>
    simp only [spread] at h
    split at h
    · exact hseen _ h
    · refine ih ?_ (fun x hx => List.mem_append_left _ hx) h
      intro x hx
      rcases List.mem_append.1 hx with hx | hx
      · obtain ⟨-, a, ha, hax⟩ := mem_fresh.1 hx
        exact (hseen a (hsub a ha)).tail hax
      · exact hseen x hx

/-- With a round for each id that is not yet seen, the search ends with a set that is closed. -/
theorem spread_closed {bound rounds : Nat} (hnext : ∀ a, ∀ b ∈ next a, b < bound)
    (hlt : ∀ x ∈ seen, x < bound) (hnodup : seen.Nodup) (hrounds : bound < seen.length + rounds)
    (hclosed : ∀ a ∈ seen, a ∉ frontier → ∀ b ∈ next a, b ∈ seen)
    {a b : NodeId} (ha : a ∈ spread next rounds frontier seen) (hb : b ∈ next a) :
    b ∈ spread next rounds frontier seen := by
  induction rounds generalizing frontier seen with
  | zero =>
    have := (List.subperm_of_subset hnodup fun x hx => List.mem_range.2 (hlt x hx)).length_le
    rw [List.length_range] at this
    omega
  | succ rounds ih =>
    simp only [spread] at ha ⊢
    cases hf : fresh next frontier seen with
    | nil =>
      simp only [hf] at ha ⊢
      by_cases haf : a ∈ frontier
      · by_contra hbs
        have : b ∈ fresh next frontier seen := mem_fresh.2 ⟨hbs, a, haf, hb⟩
        simp [hf] at this
      · exact hclosed a ha haf b hb
    | cons y ys =>
      simp only [hf] at ha ⊢
      have hnew : ∀ x, x ∈ y :: ys ↔ x ∉ seen ∧ ∃ a ∈ frontier, x ∈ next a :=
        fun x => hf ▸ mem_fresh
      refine ih ?_ ?_ ?_ ?_ ha
      · intro x hx
        rcases List.mem_append.1 hx with hx | hx
        · obtain ⟨-, a, -, hax⟩ := (hnew x).1 hx
          exact hnext a x hax
        · exact hlt x hx
      · refine List.nodup_append.2 ⟨hf ▸ eraseDups_nodup _, hnodup, ?_⟩
        rintro x hx z hz rfl
        exact ((hnew x).1 hx).1 hz
      · rw [List.length_append, List.length_cons]
        omega
      · intro x hx hxf z hz
        have hxs := (List.mem_append.1 hx).resolve_left hxf
        by_cases hzs : z ∈ seen
        · exact List.mem_append_right _ hzs
        · refine List.mem_append_left _ ((hnew z).2 ⟨hzs, x, ?_, hz⟩)
          by_contra hxf'
          exact hzs (hclosed x hxs hxf' z hz)

end Closure

/-- The closure is what is reached, if all successors are below the bound. -/
theorem mem_closure_iff {next : NodeId → List NodeId} {bound : Nat} {start id : NodeId}
    (hstart : start < bound) (hnext : ∀ a, ∀ b ∈ next a, b < bound) :
    id ∈ closure next bound start ↔ ReflTransGen (fun a b => b ∈ next a) start id := by
  constructor
  · refine Closure.reached_of_mem_spread ?_ (fun x hx => hx)
    intro x hx
    rw [List.mem_singleton.1 hx]
  · intro h
    induction h with
    | refl => exact self_mem_closure next bound start
    | tail _ hbc ih =>
      exact Closure.spread_closed hnext (by simpa using hstart) (List.nodup_singleton _)
        (by simp) (by simp) ih hbc

namespace Graph

variable {g : Graph} {a b : NodeId}

theorem Sound.lt_of_contains (_ : g.Sound) (ha : g.contains a = true) : a < g.slots.length := by
  obtain ⟨n, hn⟩ := contains_iff.1 ha
  exact lt_of_node? hn

/-- A search from a node of the graph answers whether there is a path. -/
theorem Sound.reaches_iff (h : g.Sound) (ha : g.contains a = true) :
    g.reaches a b = true ↔ ReflTransGen g.Feeds a b := by
  have hfeeds : (fun a b => b ∈ g.outgoing a) = g.Feeds := by
    funext a b
    exact propext h.mem_outgoing_iff
  rw [reaches, List.contains_iff_mem, mem_closure_iff (h.lt_of_contains ha), hfeeds]
  intro a b hb
  exact h.lt_of_contains (h.mem_outgoing_iff.1 hb).contains_right

theorem lt_bound_of_contains (ha : g.contains a = true) : a < g.bound := by
  obtain ⟨n, hn⟩ := contains_iff.1 ha
  rw [node?_eq_some] at hn
  by_contra hlt
  have hslots : g.slots = (g.slots.reverse.dropWhile Option.isNone).reverse ++
      (g.slots.reverse.takeWhile Option.isNone).reverse := by
    rw [← List.reverse_append, List.takeWhile_append_dropWhile, List.reverse_reverse]
  rw [hslots, List.getElem?_append_right (by simpa [bound] using hlt)] at hn
  have hmem := List.mem_reverse.1 (List.mem_of_getElem? hn)
  simpa using List.mem_takeWhile_imp hmem

theorem Sound.hasPath_eq (_ : g.Sound) (ha : g.contains a = true) :
    g.hasPath a b = .ok (g.reaches a b) := by
  rw [hasPath, if_pos (lt_bound_of_contains ha)]

end Graph
end BufferFusion
