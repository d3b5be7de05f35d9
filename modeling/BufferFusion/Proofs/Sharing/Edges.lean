import Mathlib.Data.List.Nodup
import BufferFusion.Sharing.Region

/-!
# Changing shared buffers

What a commit, a refresh and a detach make of the edges. A refresh moves the placements of pairs
that are there and leaves the pairs alone.
-/
namespace BufferFusion

/-- The nodes that an edge joins, owner first. -/
def SharingEdge.ends (e : SharingEdge) : NodeId × NodeId := (e.owner, e.member)

namespace Sharing

variable {e u : SharingEdge} {es us : List SharingEdge} {s : Sharing}

/-- No node is placed twice. -/
def Once (es : List SharingEdge) : Prop := (es.map (·.member)).Nodup

theorem Once.eq (h : Once es) {e e' : SharingEdge} (he : e ∈ es) (he' : e' ∈ es)
    (hm : e.member = e'.member) : e = e' := List.inj_on_of_nodup_map h he he' hm

theorem once_of_ends_eq (h : es.map (·.ends) = us.map (·.ends)) : Once es ↔ Once us := by
  have : ∀ xs : List SharingEdge, xs.map (·.member) = (xs.map (·.ends)).map (·.2) := by
    intro xs
    simp [SharingEdge.ends]
  rw [Once, Once, this es, this us, h]

theorem Once.filter (h : Once es) (p : SharingEdge → Bool) : Once (es.filter p) :=
  h.sublist ((List.filter_sublist).map _)

theorem refreshEdge_ends (u : SharingEdge) (es : List SharingEdge) :
    (refreshEdge u es).1.map (·.ends) = es.map (·.ends) := by
  induction es with
  | nil => rfl
  | cons e es ih =>
    simp only [refreshEdge]
    split
    · rfl
    · simp [ih]

theorem mem_refreshEdge (h : Once es) : e ∈ (refreshEdge u es).1 ↔
    (e = u ∧ ∃ e₀ ∈ es, e₀.ends = u.ends) ∨ (e ∈ es ∧ e.ends ≠ u.ends) := by
  have heq : ∀ x : SharingEdge, x.owner = u.owner ∧ x.member = u.member ↔ x.ends = u.ends := by
    simp [SharingEdge.ends]
  induction es with
  | nil => simp [refreshEdge]
  | cons x es ih =>
    obtain ⟨hx, hes⟩ := List.nodup_cons.1 h
    simp only [refreshEdge, heq]
    split
    · next hxu =>
      have hx' : ∀ y ∈ es, y.ends ≠ u.ends := by
        intro y hy hyu
        refine hx (List.mem_map.2 ⟨y, hy, ?_⟩)
        exact (congrArg (·.2) (hyu.trans hxu.symm) : _)
      have hux : { x with placement := u.placement } = u := by
        obtain ⟨h₁, h₂⟩ := (heq x).2 hxu
        rw [h₁, h₂]
      simp only [List.mem_cons, hux]
      constructor
      · rintro (rfl | he)
        · exact .inl ⟨rfl, x, .inl rfl, hxu⟩
        · exact .inr ⟨.inr he, hx' e he⟩
      · rintro (⟨rfl, -⟩ | ⟨rfl | he, hne⟩)
        · exact .inl rfl
        · exact absurd hxu hne
        · exact .inr he
    · next hxu =>
      simp only [List.mem_cons, ih hes]
      constructor
      · rintro (rfl | ⟨rfl, e₀, he₀, hu⟩ | ⟨he, hne⟩)
        · exact .inr ⟨.inl rfl, hxu⟩
        · exact .inl ⟨rfl, e₀, .inr he₀, hu⟩
        · exact .inr ⟨.inr he, hne⟩
      · rintro (⟨rfl, e₀, rfl | he₀, hu⟩ | ⟨rfl | he, hne⟩)
        · exact absurd hu hxu
        · exact .inr (.inl ⟨rfl, e₀, he₀, hu⟩)
        · exact .inl rfl
        · exact .inr (.inr ⟨he, hne⟩)

/-- A refresh keeps who shares with whom. -/
theorem refresh_ends (s : Sharing) (us : List SharingEdge) :
    (s.refresh us).1.edges.map (·.ends) = s.edges.map (·.ends) := by
  induction us generalizing s with
  | nil => rfl
  | cons u us ih => exact (ih _).trans (refreshEdge_ends u s.edges)

theorem once_refresh (us : List SharingEdge) : Once (s.refresh us).1.edges ↔ Once s.edges :=
  once_of_ends_eq (refresh_ends s us)

/-- After a refresh a pair that was updated stands where the update says, any other where it
stood. -/
theorem mem_refresh (h : Once s.edges) (hu : Once us) : e ∈ (s.refresh us).1.edges ↔
    (e ∈ us ∧ ∃ e₀ ∈ s.edges, e₀.ends = e.ends) ∨ (e ∈ s.edges ∧ ∀ u ∈ us, e.ends ≠ u.ends) := by
  induction us generalizing s with
  | nil => simp [refresh]
  | cons u us ih =>
    obtain ⟨hnew, hus⟩ := List.nodup_cons.1 hu
    have hends := refreshEdge_ends u s.edges
    have hex : ∀ p, (∃ e₀ ∈ (refreshEdge u s.edges).1, e₀.ends = p) ↔
        ∃ e₀ ∈ s.edges, e₀.ends = p := by
      intro p
      rw [← List.mem_map, ← List.mem_map, hends]
    have hne : ∀ x ∈ us, u.ends ≠ x.ends := by
      intro x hx hux
      exact hnew (List.mem_map.2 ⟨x, hx, (congrArg (·.2) hux).symm⟩)
    simp only [refresh]
    rw [ih (s := ⟨_⟩) ((once_of_ends_eq hends).2 h) hus, hex, mem_refreshEdge h]
    simp only [List.mem_cons, forall_eq_or_imp]
    constructor
    · rintro (⟨he, hold⟩ | ⟨⟨rfl, hold⟩ | ⟨he, hu⟩, hall⟩)
      · exact .inl ⟨.inr he, hold⟩
      · exact .inl ⟨.inl rfl, hold⟩
      · exact .inr ⟨he, hu, hall⟩
    · rintro (⟨rfl | he, hold⟩ | ⟨he, hu, hall⟩)
      · exact .inr ⟨.inl ⟨rfl, hold⟩, hne⟩
      · exact .inl ⟨he, hold⟩
      · exact .inr ⟨.inr ⟨he, hu⟩, hall⟩

/-- A proposal that passes the check places no node twice. -/
theorem once_of_checkMembers {g : Graph} {placed : List NodeId}
    (h : checkMembers g placed es = .ok ()) :
    Once es ∧ (∀ e ∈ es, e.member ∉ placed) ∧ ∀ e ∈ es, e.owner ≠ e.member := by
  induction es generalizing placed with
  | nil => simp [Once]
  | cons x es ih =>
    obtain ⟨_, -, h⟩ := Result.bind_eq_ok.1 h
    obtain ⟨_, -, h⟩ := Result.bind_eq_ok.1 h
    split at h
    · cases h
    split at h
    · cases h
    next hself hplaced =>
    obtain ⟨honce, hfree, hdiff⟩ := ih h
    simp only [List.contains_iff_mem] at hplaced
    refine ⟨List.nodup_cons.2 ⟨?_, honce⟩, ?_, ?_⟩
    · intro hx
      obtain ⟨y, hy, hyx⟩ := List.mem_map.1 hx
      exact hfree y hy (hyx ▸ List.mem_cons_self)
    · intro e he
      rcases List.mem_cons.1 he with rfl | he
      · exact hplaced
      · exact fun hmem => hfree e he (List.mem_cons_of_mem _ hmem)
    · intro e he
      rcases List.mem_cons.1 he with rfl | he
      · exact hself
      · exact hdiff e he

/-- What a proposal that is accepted does: it commits its edges, which place no node that already
has a place. -/
theorem propose_eq_ok {g g' : Graph} (h : g.propose es = .ok g') :
    g' = g.setSharing (g.sharing.commit es) ∧ Once es ∧
      (∀ e ∈ es, ∀ e' ∈ g.sharing.edges, e'.member ≠ e.member) ∧ ∀ e ∈ es, e.owner ≠ e.member := by
  obtain ⟨_, hv, hok⟩ := Result.bind_eq_ok.1 h
  obtain ⟨_, hm, -⟩ := Result.bind_eq_ok.1 hv
  obtain ⟨honce, hfree, hdiff⟩ := once_of_checkMembers hm
  refine ⟨(Except.ok.inj hok).symm, honce, ?_, hdiff⟩
  intro e he e' he' heq
  exact hfree e he (List.mem_map.2 ⟨e', he', heq⟩)

end Sharing
end BufferFusion
