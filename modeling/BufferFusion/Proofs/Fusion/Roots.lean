import Mathlib.Logic.Relation
import BufferFusion.Proofs.Fusion.Linked
import BufferFusion.Proofs.Sharing.Groups

/-!
# Roots

Where the chain of buffers that a node lies in ends. The nodes of one component have one root, and
those of them that run a kernel are the root itself or write slices of it.
-/
namespace BufferFusion.Graph

open Relation

variable {g : Graph} {id x y root : NodeId}

/-- The node's output lies in a buffer without a kernel that writes it. -/
def IsOptimized (g : Graph) (id : NodeId) : Prop :=
  ∃ into offset, g.state? id = some (.optimized into offset)

theorem isOptimized_iff {n : Node} (hn : g.node? id = some n) :
    g.IsOptimized id ↔ n.state.isOptimized = true := by
  rw [IsOptimized, state?, hn, Option.map_some]
  cases n.state with
  | optimized into offset => exact iff_of_true ⟨into, offset, rfl⟩ rfl
  | unanalyzed | eligible | rejected => exact iff_of_false (by rintro ⟨_, _, ⟨⟩⟩) Bool.false_ne_true

/-- One edge leads from a node to the node whose buffer it lies in. -/
def LiesIn (g : Graph) (member owner : NodeId) : Prop :=
  ∃ e ∈ g.sharing.edges, e.member = member ∧ e.owner = owner

/-- The output of the first node is another node's output, seen at an offset. -/
def AliasOf (g : Graph) (id into : NodeId) : Prop :=
  into ≠ id ∧ ∃ offset, g.state? id = some (.optimized into offset)

/-- The node has its own buffer, and the other's place is found in it. -/
def RootOf (g : Graph) (x root : NodeId) : Prop :=
  ReflTransGen g.LiesIn x root ∧ ∀ owner, ¬ g.LiesIn root owner

namespace Linked

variable {owner member index axis : Nat} {offset extent : Dim}

/-- A concatenation that hands out slices lies in no other buffer. -/
theorem owner_root (k : g.Linked) (hs : g.Sound)
    (he : ⟨owner, member, .slice index axis offset extent⟩ ∈ g.sharing.edges) (x : NodeId) :
    ¬ g.LiesIn owner x := by
  rintro ⟨⟨o, m, _ | _⟩, he', rfl, rfl⟩
  · obtain ⟨h₁, h₂, -⟩ := k.view he'
    rw [(k.owner he).1] at h₁
    obtain rfl : m = o := (FusionState.optimized.inj (Option.some.inj h₁)).1
    exact hs.input_ne h₂
  · exact k.not_optimized he' (k.owner he).1

/-- Whose node lies in another buffer is a view of its producer, or the other buffer is a root. -/
theorem liesIn_cases (k : g.Linked) (hs : g.Sound) (hl : g.LiesIn member owner) :
    (g.Feeds owner member ∧ g.AliasOf member owner) ∨
      (∀ x, ¬ g.LiesIn owner x) ∧ ∀ x, ¬ g.AliasOf owner x := by
  obtain ⟨⟨o, m, _ | _⟩, he, rfl, rfl⟩ := hl
  · obtain ⟨h₁, h₂, -⟩ := k.view he
    obtain ⟨n, hn, -⟩ := Result.bind_eq_ok.1 h₂
    have hn := get_eq_ok.1 hn
    refine .inl ⟨.of_input hn ((input_eq_ok hn).1 h₂), fun heq : o = m => ?_, _, h₁⟩
    subst heq
    exact hs.input_ne h₂
  · refine .inr ⟨k.owner_root hs he, ?_⟩
    rintro x ⟨hne, off, hx⟩
    rw [(k.owner he).1] at hx
    exact hne (FusionState.optimized.inj (Option.some.inj hx)).1.symm

theorem liesIn_of_aliasOf (k : g.Linked) {into : NodeId} (ha : g.AliasOf id into) :
    ∃ e ∈ g.sharing.edges, e.member = id ∧ e.owner = into ∧ e.placement.isView = true := by
  obtain ⟨hne, off, hst⟩ := ha
  exact ⟨_, k.view_of_ne hst hne, rfl, rfl, rfl⟩

/-- On the way from member to owner the ranks go down, until a root is reached. -/
theorem rank_lt (k : g.Linked) (hs : g.Sound) {rank : NodeId → Nat} (hr : g.Ranked rank)
    {a b : NodeId} (h : TransGen g.LiesIn a b) (hb : ∃ o, g.LiesIn b o) : rank b < rank a := by
  induction h with
  | single h =>
    obtain ⟨o, ho⟩ := hb
    exact hr ((k.liesIn_cases hs h).resolve_right fun hroot => hroot.1 o ho).1
  | tail _ h ih =>
    obtain ⟨o, ho⟩ := hb
    exact (hr ((k.liesIn_cases hs h).resolve_right fun hroot => hroot.1 o ho).1).trans (ih ⟨_, h⟩)

theorem acyclic (k : g.Linked) (hs : g.Sound) : ¬ TransGen g.LiesIn id id := by
  intro h
  obtain ⟨rank, hr⟩ := hs.ranked
  obtain ⟨o, ho⟩ : ∃ o, g.LiesIn id o := by
    rcases TransGen.head'_iff.1 h with ⟨o, ho, -⟩
    exact ⟨o, ho⟩
  exact Nat.lt_irrefl _ (k.rank_lt hs hr h ⟨o, ho⟩)

theorem rooted (k : g.Linked) (hs : g.Sound) (id : NodeId) : ∃ root,
    ReflTransGen g.LiesIn id root ∧ (∀ owner, ¬ g.LiesIn root owner) ∧
      ∀ into, ¬ g.AliasOf root into := by
  induction id using hs.feeds_induction with
  | step id ih =>
    by_cases h : ∃ o, g.LiesIn id o
    · obtain ⟨o, ho⟩ := h
      rcases k.liesIn_cases hs ho with ⟨hf, -⟩ | ⟨h₁, h₂⟩
      · obtain ⟨root, hr, h₁, h₂⟩ := ih o hf
        exact ⟨root, .head ho hr, h₁, h₂⟩
      · exact ⟨o, .single ho, h₁, h₂⟩
    · refine ⟨id, .refl, fun o ho => h ⟨o, ho⟩, fun into ha => h ⟨into, ?_⟩⟩
      obtain ⟨e, he, h₁, h₂, -⟩ := k.liesIn_of_aliasOf ha
      exact ⟨e, he, h₁, h₂⟩

section

variable (k : g.Linked)

include k

/-- A node lies in one buffer at most. -/
theorem liesIn_unique {a b : NodeId} (ha : g.LiesIn x a) (hb : g.LiesIn x b) : a = b := by
  obtain ⟨e, he, hm, rfl⟩ := ha
  obtain ⟨e', he', hm', rfl⟩ := hb
  rw [k.once.eq he he' (hm.trans hm'.symm)]

theorem rootOf_of_liesIn (hl : g.LiesIn x y) : g.RootOf x root ↔ g.RootOf y root := by
  constructor
  · rintro ⟨hpath, hend⟩
    refine ⟨?_, hend⟩
    rcases hpath.cases_head with rfl | ⟨c, hc, hrest⟩
    · exact absurd hl (hend y)
    · rwa [k.liesIn_unique hl hc]
  · rintro ⟨hpath, hend⟩
    exact ⟨.head hl hpath, hend⟩

/-- Connected nodes have the same root. -/
theorem rootOf_of_connected (h : Sharing.Connected g.sharing.edges x y) :
    g.RootOf x root ↔ g.RootOf y root := by
  induction h with
  | refl => rfl
  | tail _ hadj ih =>
    rw [ih]
    obtain ⟨e, he, ⟨rfl, rfl⟩ | ⟨rfl, rfl⟩⟩ := hadj
    · exact (k.rootOf_of_liesIn ⟨e, he, rfl, rfl⟩).symm
    · exact k.rootOf_of_liesIn ⟨e, he, rfl, rfl⟩

/-- A node that runs its kernel writes a buffer of its own, or a slice of the root. -/
theorem writer_cases (hs : g.Sound) (hx : ¬ g.IsOptimized x) (hr : g.RootOf x root) :
    x = root ∨ ∃ i axis b e, ⟨root, x, .slice i axis b e⟩ ∈ g.sharing.edges := by
  obtain ⟨hpath, hend⟩ := hr
  rcases hpath.cases_head with rfl | ⟨c, ⟨⟨o, m, place⟩, he, rfl, rfl⟩, hrest⟩
  · exact .inl rfl
  · refine .inr ?_
    cases place with
    | view offset => exact absurd ⟨o, offset, (k.view he).1⟩ hx
    | slice i axis b e =>
      rcases hrest.cases_head with rfl | ⟨c, hc, -⟩
      · exact ⟨i, axis, b, e, he⟩
      · exact absurd hc (k.owner_root hs he c)

end

end Linked
end BufferFusion.Graph
