import BufferFusion.Proofs.Execution.Bindings
import BufferFusion.Proofs.Execution.Shown

/-!
# Running kernels

A run of the kernels leaves every node's values where its layout says, whichever of them are written
by the node's own kernel: a kernel reads the values of its inputs, and what it writes is in nobody
else's way.
-/
namespace BufferFusion

open Graph Relation

variable {g : Graph} {b b' : Bindings} {values : InputValues} {v : NodeId → List Float}
  {n : Node} {l : Layout} {m m' : Memory} {id x y : NodeId} {done ids : List NodeId}
  {number : Nat}

theorem Bindings.memory?_congr (h : b.number? x = b.number? y) : b.memory? x = b.memory? y := by
  rw [memory?, memory?, h]

theorem Bindings.memory?_setMemory (h : b.number? id = some number) (hm : b.memory? id = some m)
    (m' : Memory) (x : NodeId) : (b.setMemory number m').memory? x =
      if b.number? x = some number then some m' else b.memory? x := by
  obtain ⟨number', h', hm⟩ := memory?_eq_some.1 hm
  obtain rfl := Option.some.inj (h.symm.trans h')
  have hlt : number < b.memories.length := (List.getElem?_eq_some_iff.1 hm).1
  have hnumber : (b.setMemory number m').number? x = b.number? x := rfl
  simp only [memory?, hnumber]
  cases hx : b.number? x with
  | none => rfl
  | some k =>
    by_cases hk : k = number
    · simp [setMemory, hk, hlt]
    · simp [setMemory, hk, Ne.symm hk]

/-- A write changes no binding. -/
theorem Graph.Housed.setMemory (k : g.Housed b) (h : b.number? id = some number)
    (hm : b.memory? id = some m) (hsize : m'.size = m.size) : g.Housed (b.setMemory number m') where
  room := by
    intro x hx
    obtain ⟨mx, hmx, hroom⟩ := k.room hx
    rw [Bindings.memory?_setMemory h hm]
    by_cases hn : b.number? x = some number
    · rw [if_pos hn]
      obtain rfl : mx = m := by
        rw [Bindings.memory?_congr (hn.trans h.symm), hm] at hmx
        exact (Option.some.inj hmx).symm
      exact ⟨m', rfl, hsize ▸ hroom⟩
    · rw [if_neg hn]
      exact ⟨mx, hmx, hroom⟩
  small := by
    intro x mx hmx
    rw [Bindings.memory?_setMemory h hm] at hmx
    split at hmx
    · obtain rfl := Option.some.inj hmx
      exact hsize ▸ k.small hm
    · exact k.small hmx
  same := k.same
  apart := k.apart

theorem Run.node_of_optimized (hn : g.node? id = some n) (hs : n.state.isOptimized = true) :
    Run.node g values id b = (b, .ok ()) := by
  have hget : g.get id = .ok n := get_eq_ok.2 hn
  simp [Run.node, hget, hs, bind, Except.bind, pure, Except.pure]

/-- A node that is not optimized writes what its kernel computes. -/
theorem Run.node_of_write {lanes : List Float} (hn : g.node? id = some n)
    (hs : n.state.isOptimized = false) (hl : g.layout id = .ok l)
    (hlanes : Run.compute g b values n l = .ok lanes) (hnumber : b.number? id = some number)
    (hm : b.memory? id = some m) (hwrite : m.write l lanes = (m', .ok ())) :
    Run.node g values id b = (b.setMemory number m', .ok ()) := by
  have hget : g.get id = .ok n := get_eq_ok.2 hn
  simp [Run.node, hget, hs, hl, hlanes, hnumber, hm, hwrite, bind, Except.bind, pure, Except.pure]

/-- A run underway: the nodes of `done` have run, and those of them that write show their values. -/
structure Running (g : Graph) (v : NodeId → List Float) (b : Bindings) (done : List NodeId) :
    Prop where
  housed : g.Housed b
  closed : ∀ {a c}, g.Feeds a c → c ∈ done → a ∈ done
  writers : ∀ x ∈ done, ¬ g.IsOptimized x → g.Shows b x (v x)

namespace Running

variable (r : Running g v b done) (k : Ready g values) (hkeep : g.Keeps v)
  (hv : ∀ x, g.contains x = true → g.Evaluated values v x)

include r k hkeep hv

/-- All nodes that are done show their values: the optimized ones what those below them show. -/
theorem shows (hx : x ∈ done) (hlive : g.contains x = true) : g.Shows b x (v x) := by
  induction x using k.sound.feeds_induction with
  | step x ih =>
    have hin : ∀ a, g.Feeds a x → g.Shows b a (v a) := fun a hf =>
      ih a hf (r.closed hf hx) (k.sound.live hf)
    by_cases hopt : g.IsOptimized x
    swap
    · exact r.writers x hx hopt
    obtain ⟨into, offset, hst⟩ := hopt
    have hmem : ∀ {a}, Sharing.Connected g.sharing.edges x a → b.memory? x = b.memory? a :=
      fun hc => Bindings.memory?_congr (r.housed.same hc)
    rcases k.linked.optimized hst with he | ⟨rfl, rfl, axis, -, hall⟩
    · obtain ⟨-, hreads, -⟩ := k.linked.view he
      obtain ⟨n, hn, -⟩ := Result.bind_eq_ok.1 hreads
      have hf : g.Feeds into x :=
        .of_input (get_eq_ok.1 hn) ((input_eq_ok (get_eq_ok.1 hn)).1 hreads)
      refine k.shows_view hkeep hst (fun h => k.sound.not_feeds_self (h ▸ hf)) (hv x hlive)
        (hmem (.single ⟨_, he, .inr ⟨rfl, rfl⟩⟩)) (hin into hf)
    · obtain ⟨m, hm, -⟩ := r.housed.room hlive
      refine k.shows_inPlace hst (hv into hlive) ⟨m, hm⟩ fun a hf => ⟨?_, hin a hf⟩
      obtain ⟨n, hn, ha⟩ := hf
      obtain ⟨i, hi⟩ := List.mem_iff_getElem?.1 ha
      obtain ⟨before, extent, he⟩ := hall i a ((input_eq_ok hn).2 hi)
      exact (hmem (.single ⟨_, he, .inl ⟨rfl, rfl⟩⟩)).symm

variable (hroom : ∀ {x l}, g.layout x = .ok l → l.HasRoom)

include hroom

/-- The kernel of a node whose inputs are done answers its values. -/
theorem compute_eq_ok (hready : ∀ a, g.Feeds a id → a ∈ done) (hn : g.node? id = some n)
    (hl : g.layout id = .ok l) : Run.compute g b values n l = .ok (v id) := by
  have hlive : g.contains id = true := contains_iff.2 ⟨n, hn⟩
  obtain rfl := k.sound.id_eq hn
  obtain ⟨n', l', sizes, hn', hl', -, -, heval⟩ := hv n.id hlive
  obtain rfl := Option.some.inj (hn.symm.trans hn')
  obtain rfl := Except.ok.inj (hl.symm.trans hl')
  rw [Run.compute_eq]
  refine Run.evaluate_mono (fun slot lv hread => ?_) rfl rfl rfl (fun _ hs => hs) heval
  refine (readInput_iff_reads fun a ha => ?_).2 hread
  have hf : g.Feeds a n.id := .of_input hn ((input_eq_ok hn).1 ha)
  obtain ⟨la, hla⟩ := k.layout_ok (k.sound.live hf)
  obtain ⟨addressing, size, haddr, hfoot, -⟩ := hroom hla
  exact ⟨r.shows k hkeep hv (hready a hf) (k.sound.live hf),
    la, addressing, size, hla, k.valid hla, haddr, hfoot⟩

omit hkeep hv in
/-- What a kernel writes is not in the way of another one. -/
theorem shows_of_write (hnew : id ∉ done) (hid : ¬ g.IsOptimized id) (hl : g.layout id = .ok l)
    (hnumber : b.number? id = some number) (hm : b.memory? id = some m)
    (hwrite : m.write l (v id) = (m', .ok ())) (hx : x ∈ done) (hopt : ¬ g.IsOptimized x) :
    g.Shows (b.setMemory number m') x (v x) := by
  obtain ⟨mx, lx, hmx, hlx, hholds⟩ := r.writers x hx hopt
  rw [Shows]
  simp only [Bindings.memory?_setMemory hnumber hm]
  by_cases hnx : b.number? x = some number
  swap
  · exact ⟨mx, lx, by rw [if_neg hnx, hmx], hlx, hholds⟩
  obtain rfl : mx = m := by
    rw [Bindings.memory?_congr (hnx.trans hnumber.symm), hm] at hmx
    exact (Option.some.inj hmx).symm
  refine ⟨m', lx, if_pos hnx, hlx, hholds.frame fun index hi sizes hs => ?_⟩
  obtain ⟨sizes', hs', hi'⟩ := hi
  obtain rfl := Option.some.inj (hs.symm.trans hs')
  obtain ⟨-, kx, -, hfx, -⟩ := hroom hlx
  obtain ⟨-, kid, -, hfid, -⟩ := hroom hl
  obtain ⟨ho, -⟩ := Layout.offset_eq_cellOf (k.valid hlx) hfx hs hi'
  refine (Memory.holds_of_write (k.valid hl) hwrite).2 _ fun index' dims hdims hi'' heq => ?_
  obtain ⟨ho', -⟩ := Layout.offset_eq_cellOf (k.valid hl) hfid hdims hi''
  have hne : x ≠ id := fun he => hnew (he ▸ hx)
  refine k.writers_disjoint hne (r.housed.apart hnx hnumber) hopt hid hlx hl hfx hfid
    ⟨sizes, hs, hi'⟩ ⟨dims, hdims, hi''⟩ ho ?_
  rw [ho', heq]

/-- Running the next node. -/
theorem step (hnew : id ∉ done) (hlive : g.contains id = true)
    (hready : ∀ a, g.Feeds a id → a ∈ done) :
    ∃ b', Run.node g values id b = (b', .ok ()) ∧ Running g v b' (id :: done) := by
  have hclosed : ∀ {a c}, g.Feeds a c → c ∈ id :: done → a ∈ id :: done :=
    fun hf hc => closed_cons r.closed hready hf hc
  obtain ⟨n, hn⟩ := contains_iff.1 hlive
  have hstate : g.state? id = some n.state := by rw [state?, hn, Option.map_some]
  cases hs : n.state with
  | optimized into offset =>
    refine ⟨b, ?_, r.housed, hclosed, fun x hx hno => ?_⟩
    · exact Run.node_of_optimized hn (by rw [hs]; rfl)
    · rcases List.mem_cons.1 hx with rfl | hx
      · exact absurd ⟨into, offset, hs ▸ hstate⟩ hno
      · exact r.writers x hx hno
  | unanalyzed | eligible | rejected =>
    have hid : ¬ g.IsOptimized id := by
      rintro ⟨into, offset, ho⟩
      rw [hstate, hs] at ho
      cases ho
    obtain ⟨l, hl⟩ := k.layout_ok hlive
    obtain ⟨a, size, haddr, hfoot, -⟩ := hroom hl
    obtain ⟨m, hm, hfits⟩ := r.housed.room hlive
    obtain ⟨size', hfoot', hle⟩ := hfits l hl
    obtain rfl := Except.ok.inj (hfoot.symm.trans hfoot')
    obtain ⟨number, hnumber, -⟩ := Bindings.memory?_eq_some.1 hm
    obtain ⟨_, l', sizes, -, hl', hsizes, hcount, -⟩ := hv id hlive
    obtain rfl := Except.ok.inj (hl.symm.trans hl')
    obtain ⟨m', hwrite⟩ := Memory.write_ok (k.valid hl) hfoot hle haddr hsizes hcount
    have hsize : m'.size = m.size := by rw [← Memory.size_write m l (v id), hwrite]
    refine ⟨b.setMemory number m', ?_, r.housed.setMemory hnumber hm hsize, hclosed,
      fun x hx hno => ?_⟩
    · exact Run.node_of_write hn (by rw [hs]; rfl) hl
        (r.compute_eq_ok k hkeep hv hroom hready hn hl) hnumber hm hwrite
    · rcases List.mem_cons.1 hx with rfl | hx
      · refine ⟨m', l, ?_, hl, (Memory.holds_of_write (k.valid hl) hwrite).1⟩
        rw [Bindings.memory?_setMemory hnumber hm, if_pos hnumber]
      · exact r.shows_of_write k hroom hnew hid hl hnumber hm hwrite hx hno

theorem along (ho : g.Ordered done ids) : ∃ b', Run.along g values ids b = (b', .ok ()) ∧
    Running g v b' (ids.reverse ++ done) := by
  induction ids generalizing b done with
  | nil => exact ⟨b, rfl, r⟩
  | cons id ids ih =>
    obtain ⟨hnew, hlive, hready, hrest⟩ := ho
    obtain ⟨b₁, hnode, r₁⟩ := r.step k hkeep hv hroom hnew hlive hready
    obtain ⟨b', hrun, r'⟩ := ih r₁ hrest
    refine ⟨b', by simp only [Run.along, hnode, hrun], ?_⟩
    rw [List.reverse_cons, List.append_assoc]
    exact r'

end Running

/-- Running a graph that is ready: its kernels answer, and afterwards all nodes show their values. -/
theorem Ready.run (k : Ready g values) (hkeep : g.Keeps v)
    (hv : ∀ x, g.contains x = true → g.Evaluated values v x)
    (hroom : ∀ {x l}, g.layout x = .ok l → l.HasRoom) (hb : g.Housed b) :
    ∃ b', g.run b values = (b', .ok ()) ∧ ∀ x, g.contains x = true → g.Shows b' x (v x) := by
  have r : Running g v b [] := ⟨hb, by simp, by simp⟩
  obtain ⟨b', hrun, r'⟩ := r.along k hkeep hv hroom k.sound.ordered
  refine ⟨b', hrun, fun x hx => r'.shows k hkeep hv ?_ hx⟩
  simpa using k.sound.mem_order.2 hx

end BufferFusion
