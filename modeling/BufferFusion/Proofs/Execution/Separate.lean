import BufferFusion.Proofs.Execution.Running

/-!
# Separate buffers

A run of a graph that shares no buffer. Every node writes into a memory of its own, which nobody
writes into after it, so the values that are there in the end are those that the kernels have
answered and read.
-/
namespace BufferFusion

open Graph

variable {g : Graph} {b b' : Bindings} {values : InputValues} {v v' : NodeId → List Float}
  {n : Node} {id x : NodeId} {done ids : List NodeId}

/-- A node that is not optimized has written what its kernel answered. -/
theorem Run.node_eq_ok (hn : g.node? id = some n) (hopt : ¬ g.IsOptimized id)
    (h : Run.node g values id b = (b', .ok ())) : ∃ l lanes number m m',
      g.layout id = .ok l ∧ Run.compute g b values n l = .ok lanes ∧ b.number? id = some number ∧
        b.memory? id = some m ∧ m.write l lanes = (m', .ok ()) ∧ b' = b.setMemory number m' := by
  have hget : g.get id = .ok n := get_eq_ok.2 hn
  have hs : n.state.isOptimized = false := Bool.eq_false_iff.2 (mt (isOptimized_iff hn).2 hopt)
  simp only [Run.node, hget, hs, Bool.false_eq_true, if_false, bind, Except.bind] at h
  cases hl : g.layout id with
  | error e =>
    rw [hl] at h
    cases (Prod.mk.inj h).2
  | ok l =>
    simp only [hl] at h
    cases hlanes : Run.compute g b values n l with
    | error e =>
      rw [hlanes] at h
      cases (Prod.mk.inj h).2
    | ok lanes =>
      simp only [hlanes] at h
      cases hnumber : b.number? id with
      | none =>
        rw [hnumber] at h
        cases (Prod.mk.inj h).2
      | some number =>
        cases hm : b.memory? id with
        | none =>
          rw [hnumber, hm] at h
          cases (Prod.mk.inj h).2
        | some m =>
          simp only [hnumber, hm, pure, Except.pure] at h
          obtain ⟨rfl, hok⟩ := Prod.mk.inj h
          exact ⟨l, lanes, number, m, _, rfl, hlanes, rfl, rfl, Prod.ext rfl hok, rfl⟩

/-- What running a node preserves, a run that answers preserves. -/
theorem Run.along_induction {P : List NodeId → Bindings → Prop} (hp : P done b)
    (hstep : ∀ {done b b' id}, P done b → id ∉ done → g.contains id = true →
      (∀ a, g.Feeds a id → a ∈ done) → Run.node g values id b = (b', .ok ()) → P (id :: done) b')
    (ho : g.Ordered done ids) (h : Run.along g values ids b = (b', .ok ())) :
    P (ids.reverse ++ done) b' := by
  induction ids generalizing b done with
  | nil =>
    obtain ⟨rfl, -⟩ := Prod.mk.inj h
    exact hp
  | cons id ids ih =>
    obtain ⟨hnew, hlive, hready, hrest⟩ := ho
    simp only [Run.along] at h
    split at h
    · cases (Prod.mk.inj h).2
    next b₁ hnode =>
    rw [List.reverse_cons, List.append_assoc]
    exact ih (hstep hp hnew hlive hready hnode) hrest h

/-- The values of a node depend on those of its inputs. -/
theorem Graph.Evaluated.congr (h : g.Evaluated values v x) (hx : v' x = v x)
    (hin : ∀ a, g.Feeds a x → v' a = v a) : g.Evaluated values v' x := by
  obtain ⟨n, l, sizes, hn, hl, hs, hcount, heval⟩ := h
  refine ⟨n, l, sizes, hn, hl, hs, hx ▸ hcount, ?_⟩
  rw [hx]
  refine Run.evaluate_mono (fun slot lv hread => ?_) rfl rfl rfl (fun _ hs => hs) heval
  obtain ⟨a, la, sizes', count, ha, hla, hs', hc, hr, rfl⟩ := reads_eq_ok.1 hread
  have hsame := hin a (.of_input hn ((input_eq_ok hn).1 ha))
  exact reads_eq_ok.2 ⟨a, la, sizes', count, ha, hla, hs', hc, hr, by rw [hsame]⟩

/-- A run underway where nodes have memories of their own: those that are done have their values. -/
structure Valued (g : Graph) (values : InputValues) (v : NodeId → List Float) (b : Bindings)
    (done : List NodeId) : Prop where
  housed : g.Housed b
  closed : ∀ {a c}, g.Feeds a c → c ∈ done → a ∈ done
  evaluated : ∀ x ∈ done, g.Evaluated values v x
  shows : ∀ x ∈ done, g.Shows b x (v x)
  room : ∀ x ∈ done, ∀ l, g.layout x = .ok l → l.HasRoom

namespace Valued

variable (r : Valued g values v b done) (k : Ready g values) (hedges : g.sharing.edges = [])
  (hplain : ∀ x, ¬ g.IsOptimized x)

include r k hedges hplain

theorem step (hnew : id ∉ done) (hlive : g.contains id = true)
    (hready : ∀ a, g.Feeds a id → a ∈ done) (h : Run.node g values id b = (b', .ok ())) :
    ∃ v', Valued g values v' b' (id :: done) := by
  obtain ⟨n, hn⟩ := contains_iff.1 hlive
  obtain rfl := k.sound.id_eq hn
  obtain ⟨l, lanes, number, m, m', hl, hlanes, hnumber, hm, hwrite, rfl⟩ :=
    Run.node_eq_ok hn (hplain n.id) h
  obtain ⟨sizes, addressing, hs, hcount, haddr, -⟩ := Memory.write_eq_ok.1 hwrite
  have hroom : l.HasRoom := by
    obtain ⟨m₁, hm₁, hfits⟩ := r.housed.room hlive
    obtain rfl := Option.some.inj (hm.symm.trans hm₁)
    obtain ⟨k', hfoot, hle⟩ := hfits l hl
    exact ⟨addressing, k', haddr, hfoot, Nat.le_trans hle (r.housed.small hm)⟩
  have hsize : m'.size = m.size := by rw [← Memory.size_write m l lanes, hwrite]
  -- the values so far with those of the node
  have hself : Function.update v n.id lanes n.id = lanes := Function.update_self ..
  have hother : ∀ x ∈ done, Function.update v n.id lanes x = v x := fun x hx =>
    Function.update_of_ne (fun he : x = n.id => hnew (he ▸ hx)) ..
  refine ⟨Function.update v n.id lanes, r.housed.setMemory hnumber hm hsize,
    fun hf hc => closed_cons r.closed hready hf hc, fun x hx => ?_, fun x hx => ?_,
    fun x hx lx hlx => ?_⟩
  · rcases List.mem_cons.1 hx with rfl | hx
    swap
    · exact (r.evaluated x hx).congr (hother x hx) fun a hf => hother a (r.closed hf hx)
    refine ⟨n, l, sizes, hn, hl, hs, by rwa [hself], ?_⟩
    rw [hself]
    rw [Run.compute_eq] at hlanes
    refine Run.evaluate_mono (fun slot lv hread => ?_) rfl rfl rfl (fun _ hs => hs) hlanes
    refine (readInput_iff_reads fun a ha => ?_).1 hread
    have hf : g.Feeds a n.id := .of_input hn ((input_eq_ok hn).1 ha)
    obtain ⟨la, hla⟩ := k.layout_ok (k.sound.live hf)
    obtain ⟨addressing', size', haddr', hfoot', -⟩ := r.room a (hready a hf) la hla
    rw [hother a (hready a hf)]
    exact ⟨r.shows a (hready a hf), la, addressing', size', hla, k.valid hla, haddr', hfoot'⟩
  · rw [Shows]
    simp only [Bindings.memory?_setMemory hnumber hm]
    rcases List.mem_cons.1 hx with rfl | hx
    · rw [if_pos hnumber, hself]
      exact ⟨m', l, rfl, hl, (Memory.holds_of_write (k.valid hl) hwrite).1⟩
    · obtain ⟨mx, lx, hmx, hlx, hholds⟩ := r.shows x hx
      rw [hother x hx, if_neg]
      · exact ⟨mx, lx, hmx, hlx, hholds⟩
      · intro hnx
        have hconn := r.housed.apart hnx hnumber
        rw [hedges] at hconn
        obtain rfl | ⟨c, ⟨e, he, -⟩, -⟩ := hconn.cases_head
        · exact hnew hx
        · cases he
  · rcases List.mem_cons.1 hx with rfl | hx
    · obtain rfl := Except.ok.inj (hl.symm.trans hlx)
      exact hroom
    · exact r.room x hx lx hlx

end Valued

/-- After a run without shared buffers every node has values of its own, and shows them. -/
theorem Ready.values_of_run (k : Ready g values) (hedges : g.sharing.edges = [])
    (hplain : ∀ x, ¬ g.IsOptimized x) (hb : g.Housed b) (h : g.run b values = (b', .ok ())) :
    ∃ v, ∀ x, g.contains x = true → g.Evaluated values v x ∧ g.Shows b' x (v x) ∧
      ∀ l, g.layout x = .ok l → l.HasRoom := by
  have r : Valued g values (fun _ => []) b [] := ⟨hb, by simp, by simp, by simp, by simp⟩
  obtain ⟨v, r'⟩ := Run.along_induction (P := fun done b => ∃ v, Valued g values v b done) ⟨_, r⟩
    (fun ⟨_, r⟩ hnew hlive hready hnode => r.step k hedges hplain hnew hlive hready hnode)
    k.sound.ordered h
  refine ⟨v, fun x hx => ?_⟩
  have hx : x ∈ g.order.reverse ++ [] := by simpa using k.sound.mem_order.2 hx
  exact ⟨r'.evaluated x hx, r'.shows x hx, r'.room x hx⟩

end BufferFusion
