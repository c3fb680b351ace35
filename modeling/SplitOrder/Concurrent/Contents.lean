/-
What a concurrent search has seen.

`contents` are the payloads on the chain, by hash. A search may stand on a
node that was unlinked since it came there, or cross one; what it finds was
so at some moment since it began. `Saw` is why: the nodes `K` that were on
the chain at some moment of the call are closed under next pointers, for an
unlinked node keeps the pointer it was unlinked with.
-/
import SplitOrder.Concurrent.Search
import SplitOrder.Concurrent.Safety
import SplitOrder.Solist.Resize

namespace SplitOrder

namespace Concurrent

open Heap

variable {T : Type} {n : Nat} {s s' : Solist T} {l r l' r' : List Addr} {a : Accessor} {hashv : Hash} {v : T}

/-! ## What the chain binds -/

/-- The payloads on a chain, by hash. -/
def contents (h : Heap T) (l : List Addr) (hashv : Hash) : Option T :=
  l.findSome? fun a => if (h.node a).hashv = hashv then (h.node a).payload else none

/-- The payloads the list holds, by hash. -/
def bindings (s : Solist T) : Hash → Option T := contents s.heap s.nodes

theorem Mem.bindings_eq (hm : Mem s l r) : bindings s = contents s.heap l := by
  obtain ⟨b, hb⟩ := hm.first
  have hseg := hm.mesh.seg
  have hlen : l.length ≤ s.heap.size := by
    have hnd := (List.nodup_append.mp hm.mesh.nodup).1
    have hsub : l ⊆ List.range s.heap.size := fun x hx => List.mem_range.mpr (hm.mesh.lt x (by simp [hx]))
    simpa using (List.subperm_of_subset hnd hsub).length_le
  unfold bindings Solist.nodes
  rw [hb]
  rw [hm.head hb] at hseg
  exact congrArg (contents s.heap) (Seg.follow_eq hseg hlen)

/-- A hash is bound by the data node that has it. -/
theorem contents_eq_some_iff {h : Heap T} (hm : h.Mesh l r) :
    contents h l hashv = some v ↔ ∃ x ∈ l, (h.node x).hashv = hashv ∧ (h.node x).payload = some v := by
  have hof : ∀ w, contents h l hashv = some w → ∃ x ∈ l, (h.node x).hashv = hashv ∧ (h.node x).payload = some w := by
    intro w hw
    obtain ⟨x, hx, hxw⟩ := List.exists_of_findSome?_eq_some hw
    split at hxw
    · exact ⟨x, hx, ‹_›, hxw⟩
    · cases hxw
  refine ⟨hof v, fun ⟨x, hx, hxh, hxv⟩ => ?_⟩
  cases hc : contents h l hashv with
  | none =>
    have hnone := List.findSome?_eq_none_iff.mp hc x hx
    rw [if_pos hxh, hxv] at hnone
    cases hnone
  | some w =>
    -- one node of the chain has the key
    obtain ⟨y, hy, hyh, hyw⟩ := hof w hc
    have hkey : h.key x = h.key y := by
      rw [hm.key_data (by simp [hx]) (by simp [isData, hxv]), hm.key_data (by simp [hy]) (by simp [isData, hyw]),
        hxh, hyh]
    rw [hm.eq_of_key_eq hx hy hkey, hyw] at hxv
    exact hxv

theorem contents_eq_none_iff {h : Heap T} (hm : h.Mesh l r) :
    contents h l hashv = none ↔ ∀ x ∈ l, h.isData x = true → (h.node x).hashv ≠ hashv := by
  rw [Option.eq_none_iff_forall_ne_some]
  constructor
  · intro h x hx hd hxh
    obtain ⟨v, hv⟩ := Option.isSome_iff_exists.mp hd
    exact h v ((contents_eq_some_iff hm).mpr ⟨x, hx, hxh, hv⟩)
  · intro h v hv
    obtain ⟨x, hx, hxh, hxv⟩ := (contents_eq_some_iff hm).mp hv
    exact h x hx (by simp [isData, hxv]) hxh

/-! ## A step, for those who look on -/

/-- What a step leaves for the searches in progress: a published node that is not on the chain keeps its pointer. -/
structure Passes (s : Solist T) (l r : List Addr) (s' : Solist T) (l' r' : List Addr) : Prop where
  mem : Mem s l r
  mem' : Mem s' l' r'
  ext : s.heap.Extends s'.heap
  known : ∀ a ∈ l ++ r, a ∈ l' ++ r'
  gone : ∀ a ∈ l ++ r, a ∉ l' → s'.heap.nextOf a = s.heap.nextOf a

/-- The heap after a step: a word that is left marked has the pointer it had. -/
inductive Writes (s : Solist T) (l r : List Addr) : Heap T → Prop
  | same : Writes s l r s.heap
  | new {n : Node T} : Writes s l r (s.heap.new n)
  | delete {d : Addr} : Writes s l r (s.heap.delete d)
  | priv {d : Addr} {m : MarkPtr Addr} : d ∉ l ++ r → Writes s l r (s.heap.setNext d m)
  | word {c : Addr} {m : MarkPtr Addr} : (m.mark = true → m.ptr = s.heap.nextOf c) →
      Writes s l r (s.heap.setNext c m)

theorem Writes.gone {h' : Heap T} {x : Addr} (hw : Writes s l r h') (hm : s.heap.Mesh l r) (hm' : h'.Mesh l' r')
    (hx : x ∈ l ++ r) (hx' : x ∈ r') : h'.nextOf x = s.heap.nextOf x := by
  have hmk := hm'.removed x hx'
  cases hw with
  | same => rfl
  | new => rw [nextOf, nextOf, new_node_of_lt (hm.lt x hx)]
  | delete => rfl
  | @priv d m hd =>
    have hne : x ≠ d := fun he => hd (he ▸ hx)
    rw [nextOf, nextOf, setNext_node_of_ne hne]
  | @word c m hword =>
    by_cases hxc : x = c
    · subst hxc
      rw [setNext_next_self] at hmk
      rw [nextOf, setNext_next_self]
      exact hword hmk
    · rw [nextOf, nextOf, setNext_node_of_ne hxc]

/-- A `CAS` that leaves its word marked has not changed the pointer. -/
theorem cas_writes {c : Addr} {e d : Option Addr} {mark : Bool} (hd : mark = true → d = e) :
    Writes s l r (s.heap.setNext c ((s.heap.node c).next.cas e d mark).2) := by
  refine .word fun hmk => ?_
  by_cases he : (s.heap.node c).next = { ptr := e }
  · rw [MarkPtr.cas_ok he] at hmk ⊢
    rw [nextOf, he]
    exact hd hmk
  · rw [MarkPtr.cas_fail he]
    rfl

theorem init_writes {i : InitCall} {pc : InitPc} (h : pc.Ok s l r a i) : Writes s l r (i.step s a pc).list.heap := by
  cases pc with
  | setNext => exact .priv h.1.notMem
  | cas =>
    simp only [InitCall.step]
    split
    · exact .same
    · exact cas_writes (fun h => by cases h)
  | discard => exact .delete
  | store => exact .same
  | storeNext => exact .same
  | probe pbKey =>
    simp only [InitCall.step]
    split
    · exact .same
    · split
      · exact .same
      · split <;> exact .same
  | recheck =>
    simp only [InitCall.step]
    split
    · exact .same
    · exact .same
    · split <;> exact .same
  | walk =>
    simp only [InitCall.step]
    split
    · exact .same
    · split <;> exact .same
  | assertNext =>
    simp only [InitCall.step]
    split
    · split <;> exact .same
    · exact .same
  | assertKey =>
    simp only [InitCall.step]
    split
    · split <;> exact .same
    · exact .same
  | _ =>
    simp only [InitCall.step]
    split <;> exact .same

theorem found_writes {f : FindCall} {b : Bool} : Writes s l r (f.found s a b).list.heap := by
  cases f <;> cases b <;> first | exact .same | exact .delete

/-- What the start of a call does to the heap. -/
theorem Thread.call_writes {th : Thread} {op : Op T} (hv : op.Valid s) : Writes s l r (th.call s op).list.heap := by
  cases op with
  | insertNode hashv v =>
    have hlt : hashv.toNat < 2 ^ 31 := hv
    simp only [Thread.call, solistNode_ok v hlt]
    exact .new
  | deleteNode hashv => exact .same
  | findItemNode hashv => exact .same
  | initialiseBucket slot => exact .same

/-- What a thread's step does to the heap. -/
theorem Thread.step_writes {th : Thread} {e : Effect T} (h : th.Ok s l r) (he : th.step s = some e) :
    Writes s l r e.list.heap := by
  obtain ⟨a, pc⟩ := th
  cases pc with
  | idle res => cases he
  | expand hashv => cases he
  | crashed => cases he
  | init i pc =>
    cases he
    exact init_writes h.2
  | initEntry slot k =>
    cases he
    simp only [initEntry]
    split
    · exact .same
    · split
      · exact .same
      · exact .same
      · split
        · exact .same
        · exact .new
  | initReturn slot k =>
    cases he
    cases k <;> exact .same
  | findEntry f =>
    cases he
    simp only [FindCall.entry]
    split <;> exact .same
  | findBucket f =>
    cases he
    simp only [FindCall.bucket]
    split <;> exact .same
  | findNext f =>
    cases he
    simp only [FindCall.next]
    split <;> exact .same
  | findWalk f =>
    cases he
    simp only [FindCall.walk]
    split
    · exact found_writes
    · split
      · exact .same
      · exact found_writes
  | insertSetNext hashv d =>
    cases he
    exact .priv h.1.2.priv.notMem
  | insertCas hashv d =>
    cases he
    have hcas : ∀ c, Writes s l r (s.heap.setNext c ((s.heap.node c).next.cas a.next (some d) false).2) := fun c =>
      cas_writes fun h => by cases h
    simp only [insertCas]
    split
    · exact .same
    · split <;> exact hcas _
  | insertCount hashv =>
    cases he
    exact .same
  | insertNext hashv =>
    cases he
    simp only [insertNext]
    split <;> exact .same
  | insertWalk hashv =>
    cases he
    simp only [insertWalk]
    split
    · exact .same
    · split <;> exact .same
  | insertCheck hashv =>
    cases he
    simp only [insertCheck]
    split
    · split
      · exact .same
      · split <;> exact .same
    · exact .same
  | deleteMark hashv =>
    cases he
    have hcas : ∀ c, Writes s l r (s.heap.setNext c ((s.heap.node c).next.cas a.next a.next true).2) := fun c =>
      cas_writes fun _ => rfl
    simp only [deleteMark]
    split
    · exact .same
    · split <;> exact hcas _
  | deleteUnlink hashv =>
    cases he
    have hcas : ∀ p c, Writes s l r (s.heap.setNext p ((s.heap.node p).next.cas (some c) a.next false).2) := fun p c =>
      cas_writes fun h => by cases h
    simp only [deleteUnlink]
    split
    · split <;> exact hcas _ _
    · exact .same
  | deleteCount hashv =>
    cases he
    simp only [deleteCount]
    split
    · exact .same
    · exact .delete

theorem Keeps.passes {th : Thread} {e : Effect T} (hk : Keeps s l r th e l' r') (hm : Mem s l r)
    (hw : Writes s l r e.list.heap) : Passes s l r e.list l' r' := by
  refine ⟨hm, hk.mem, hk.frame.ext, hk.frame.known, fun a ha ha' => hw.gone hm.mesh hk.mem.mesh ha ?_⟩
  obtain h | h := List.mem_append.mp (hk.frame.known a ha)
  · exact absurd h ha'
  · exact h

/-- The data nodes a step adds to the chain and takes from it. -/
theorem Keeps.items_perm {th : Thread} {e : Effect T} (hk : Keeps s l r th e l' r') :
    (l'.filter e.list.heap.isData ++ (e.unlinked.map Prod.snd).toList).Perm
      (l.filter s.heap.isData ++ (e.linked.map Prod.snd).toList) := by
  have hperm := hk.linked
  rw [hk.unlinked, List.perm_iff_count] at hperm
  rw [List.perm_iff_count]
  intro x
  have := hperm x
  simp only [List.count_append] at this ⊢
  omega

namespace Passes

variable {c d : Addr}

theorem isData (hp : Passes s l r s' l' r') {x : Addr} (hx : x ∈ l) : s'.heap.isData x = s.heap.isData x :=
  hp.ext.isData (hp.mem.mesh.lt x (by simp [hx]))

/-- A data node of the chain, as the step found it. -/
theorem old (hp : Passes s l r s' l' r') {x : Addr} (hx : x ∈ l) :
    (s'.heap.node x).hashv = (s.heap.node x).hashv ∧ (s'.heap.node x).payload = (s.heap.node x).payload := by
  have hlt := hp.mem.mesh.lt x (by simp [hx])
  exact ⟨hp.ext.hashv x hlt, hp.ext.payload x hlt⟩

theorem mem_filter_iff {h : Heap T} {L : List Addr} {x : Addr} (hv : (h.node x).payload = some v) :
    x ∈ L.filter h.isData ↔ x ∈ L := by
  simp [Heap.isData, hv]

/-- A step that neither links nor unlinks a data node leaves the contents. -/
theorem contents_eq (hp : Passes s l r s' l' r') (hperm : (l'.filter s'.heap.isData).Perm (l.filter s.heap.isData)) :
    contents s'.heap l' = contents s.heap l := by
  have hmem : ∀ x, x ∈ l'.filter s'.heap.isData ↔ x ∈ l.filter s.heap.isData := fun x => hperm.mem_iff
  funext k
  refine Option.ext fun v => ?_
  rw [contents_eq_some_iff hp.mem'.mesh, contents_eq_some_iff hp.mem.mesh]
  constructor
  · rintro ⟨x, hx, hxk, hxv⟩
    have hxl := (List.mem_filter.mp ((hmem x).mp ((mem_filter_iff hxv).mpr hx))).1
    obtain ⟨hh, hpay⟩ := hp.old hxl
    exact ⟨x, hxl, hh.symm.trans hxk, hpay.symm.trans hxv⟩
  · rintro ⟨x, hx, hxk, hxv⟩
    obtain ⟨hh, hpay⟩ := hp.old hx
    have hxl := (List.mem_filter.mp ((hmem x).mpr ((mem_filter_iff hxv).mpr hx))).1
    exact ⟨x, hxl, hh.trans hxk, hpay.trans hxv⟩

/-- Linking the node `d` binds its hash, which was not bound. -/
theorem contents_link (hp : Passes s l r s' l' r')
    (hperm : (l'.filter s'.heap.isData).Perm (l.filter s.heap.isData ++ [d])) (hd : d < s.heap.size)
    (hh : (s.heap.node d).hashv = hashv) (hv : (s.heap.node d).payload = some v) :
    contents s.heap l hashv = none ∧ contents s'.heap l' = Function.update (contents s.heap l) hashv (some v) := by
  have hmem : ∀ x, x ∈ l' ∧ s'.heap.isData x = true ↔ (x ∈ l ∧ s.heap.isData x = true) ∨ x = d := by
    intro x
    rw [← List.mem_filter, hperm.mem_iff, List.mem_append, List.mem_filter, List.mem_singleton]
  obtain ⟨hdl, hdd⟩ := (hmem d).mpr (.inr rfl)
  have hh' : (s'.heap.node d).hashv = hashv := (hp.ext.hashv d hd).trans hh
  have hv' : (s'.heap.node d).payload = some v := (hp.ext.payload d hd).trans hv
  have hnd : (l.filter s.heap.isData ++ [d]).Nodup :=
    hperm.nodup_iff.mp (((List.nodup_append.mp hp.mem'.mesh.nodup).1).filter _)
  have habs : ∀ x ∈ l, s.heap.isData x = true → (s.heap.node x).hashv ≠ hashv := by
    intro x hx hxd hxh
    obtain ⟨hxl, hxd'⟩ := (hmem x).mpr (.inl ⟨hx, hxd⟩)
    have hkey : s'.heap.key x = s'.heap.key d := by
      rw [hp.mem'.mesh.key_data (by simp [hxl]) hxd', hp.mem'.mesh.key_data (by simp [hdl]) hdd, hh', (hp.old hx).1, hxh]
    have hxd'' := hp.mem'.mesh.eq_of_key_eq hxl hdl hkey
    exact (List.nodup_append.mp hnd).2.2 x (List.mem_filter.mpr ⟨hx, hxd⟩) d (by simp) hxd''
  refine ⟨(contents_eq_none_iff hp.mem.mesh).mpr habs, ?_⟩
  funext k
  by_cases hk : k = hashv
  · rw [hk, Function.update_self]
    exact (contents_eq_some_iff hp.mem'.mesh).mpr ⟨d, hdl, hh', hv'⟩
  · rw [Function.update_of_ne hk]
    refine Option.ext fun w => ?_
    rw [contents_eq_some_iff hp.mem'.mesh, contents_eq_some_iff hp.mem.mesh]
    constructor
    · rintro ⟨x, hx, hxk, hxw⟩
      obtain ⟨hxl, -⟩ | rfl := (hmem x).mp ⟨hx, by simp [Heap.isData, hxw]⟩
      · exact ⟨x, hxl, (hp.old hxl).1.symm.trans hxk, (hp.old hxl).2.symm.trans hxw⟩
      · exact absurd (hxk.symm.trans hh') hk
    · rintro ⟨x, hx, hxk, hxw⟩
      obtain ⟨hxl, -⟩ := (hmem x).mpr (.inl ⟨hx, by simp [Heap.isData, hxw]⟩)
      exact ⟨x, hxl, (hp.old hx).1.trans hxk, (hp.old hx).2.trans hxw⟩

/-- Unlinking the node `c` unbinds its hash. -/
theorem contents_unlink (hp : Passes s l r s' l' r')
    (hperm : (l'.filter s'.heap.isData ++ [c]).Perm (l.filter s.heap.isData)) (hh : (s'.heap.node c).hashv = hashv) :
    (contents s.heap l hashv).isSome ∧ contents s'.heap l' = Function.update (contents s.heap l) hashv none := by
  have hmem : ∀ x, x ∈ l ∧ s.heap.isData x = true ↔ (x ∈ l' ∧ s'.heap.isData x = true) ∨ x = c := by
    intro x
    rw [← List.mem_filter, ← hperm.mem_iff, List.mem_append, List.mem_filter, List.mem_singleton]
  obtain ⟨hcl, hcd⟩ := (hmem c).mpr (.inr rfl)
  have hch : (s.heap.node c).hashv = hashv := (hp.old hcl).1.symm.trans hh
  have hnd : (l'.filter s'.heap.isData ++ [c]).Nodup :=
    hperm.nodup_iff.mpr (((List.nodup_append.mp hp.mem.mesh.nodup).1).filter _)
  refine ⟨?_, ?_⟩
  · obtain ⟨w, hw⟩ := Option.isSome_iff_exists.mp hcd
    rw [(contents_eq_some_iff hp.mem.mesh).mpr ⟨c, hcl, hch, hw⟩]
    rfl
  funext k
  by_cases hk : k = hashv
  · rw [hk, Function.update_self, contents_eq_none_iff hp.mem'.mesh]
    intro x hx hxd hxh
    obtain ⟨hxl, hxd'⟩ := (hmem x).mpr (.inl ⟨hx, hxd⟩)
    have hkey : s.heap.key x = s.heap.key c := by
      rw [hp.mem.mesh.key_data (by simp [hxl]) hxd', hp.mem.mesh.key_data (by simp [hcl]) hcd, hch,
        ← (hp.old hxl).1, hxh]
    have hxc := hp.mem.mesh.eq_of_key_eq hxl hcl hkey
    exact (List.nodup_append.mp hnd).2.2 x (List.mem_filter.mpr ⟨hx, hxd⟩) c (by simp) hxc
  · rw [Function.update_of_ne hk]
    refine Option.ext fun w => ?_
    rw [contents_eq_some_iff hp.mem'.mesh, contents_eq_some_iff hp.mem.mesh]
    constructor
    · rintro ⟨x, hx, hxk, hxw⟩
      obtain ⟨hxl, -⟩ := (hmem x).mpr (.inl ⟨hx, by simp [Heap.isData, hxw]⟩)
      exact ⟨x, hxl, (hp.old hxl).1.symm.trans hxk, (hp.old hxl).2.symm.trans hxw⟩
    · rintro ⟨x, hx, hxk, hxw⟩
      obtain ⟨hxl, -⟩ | rfl := (hmem x).mp ⟨hx, by simp [Heap.isData, hxw]⟩
      · exact ⟨x, hxl, (hp.old hx).1.trans hxk, (hp.old hx).2.trans hxw⟩
      · exact absurd (hxk.symm.trans hch) hk

end Passes

/-! ## What a search has seen -/

/-- The nodes `K` were on the chain at some moment of a call that looks for `hashv`; `M` is what the list held
at these moments. -/
structure Saw (s : Solist T) (l r : List Addr) (M : Set (Hash → Option T)) (hashv : Hash) (K : Set Addr) : Prop where
  now : contents s.heap l ∈ M
  chain : ∀ x ∈ l, x ∈ K
  known : ∀ x ∈ K, x ∈ l ++ r
  next : ∀ x ∈ K, ∀ y, s.heap.nextOf x = some y → y ∈ K
  held : ∀ x ∈ K, s.heap.key x = solNodeKey hashv → ∃ m ∈ M, m hashv = (s.heap.node x).payload
  absent : ∀ x ∈ K, s.heap.key x < solNodeKey hashv →
    (∀ y, s.heap.nextOf x = some y → solNodeKey hashv < s.heap.key y) → ∃ m ∈ M, m hashv = none

/-- The pointer of a node of the chain leads on along it. -/
theorem next_mem_chain (hm : Mem s l r) {x y : Addr} (hx : x ∈ l) (hy : s.heap.nextOf x = some y) : y ∈ l := by
  obtain ⟨A, B, rfl⟩ := List.append_of_mem hx
  rw [hm.mesh.seg.next] at hy
  simp [List.mem_of_head? hy]

/-- A node of the chain with the key is what the hash is bound to. -/
theorem held_now (hm : Mem s l r) (hh : hashv.toNat < 2 ^ 31) {x : Addr} (hx : x ∈ l)
    (hk : s.heap.key x = solNodeKey hashv) : contents s.heap l hashv = (s.heap.node x).payload := by
  obtain ⟨hd, hxh⟩ := hm.mesh.data_of_key (by simp [hx]) hh hk
  obtain ⟨w, hw⟩ := Option.isSome_iff_exists.mp hd
  rw [hw]
  exact (contents_eq_some_iff hm.mesh).mpr ⟨x, hx, hxh, hw⟩

/-- A hash whose key lies between two neighbours of the chain is not bound. -/
theorem absent_now (hm : Mem s l r) {x : Addr} (hx : x ∈ l) (hk : s.heap.key x < solNodeKey hashv)
    (hnext : ∀ y, s.heap.nextOf x = some y → solNodeKey hashv < s.heap.key y) : contents s.heap l hashv = none := by
  have hlast : Last s (solNodeKey hashv) x := ⟨hm.onChain_iff.mpr hx, BitVec.le_of_lt hk, hnext⟩
  rw [contents_eq_none_iff hm.mesh]
  intro y hy hyd hyh
  have hkey : s.heap.key y = solNodeKey hashv := by rw [hm.mesh.key_data (by simp [hy]) hyd, hyh]
  rw [hlast.unique (.of_key hm hy hkey) hm, hkey] at hk
  exact BitVec.lt_irrefl _ hk

theorem Saw.start (hm : Mem s l r) (hh : hashv.toNat < 2 ^ 31) :
    Saw s l r {contents s.heap l} hashv {x | x ∈ l} where
  now := rfl
  chain _ hx := hx
  known _ hx := List.mem_append_left r hx
  next _ hx _ hy := next_mem_chain hm hx hy
  held _ hx hk := ⟨_, rfl, held_now hm hh hx hk⟩
  absent _ hx hk hnext := ⟨_, rfl, absent_now hm hx hk hnext⟩

variable {M : Set (Hash → Option T)} {K : Set Addr}

/-- **What a search has seen survives every step**, and the chain after the step is seen too. -/
theorem Saw.passes (h : Saw s l r M hashv K) (hp : Passes s l r s' l' r') (hh : hashv.toNat < 2 ^ 31) :
    Saw s' l' r' (insert (contents s'.heap l') M) hashv (K ∪ {x | x ∈ l'}) := by
  have hlt : ∀ x ∈ K, x < s.heap.size := fun x hx => hp.mem.mesh.lt x (h.known x hx)
  have hkey : ∀ x ∈ K, s'.heap.key x = s.heap.key x := fun x hx => hp.ext.key x (hlt x hx)
  have hgone : ∀ x ∈ K, x ∉ l' → s'.heap.nextOf x = s.heap.nextOf x := fun x hx => hp.gone x (h.known x hx)
  refine ⟨Set.mem_insert _ _, fun x hx => .inr hx, fun x hx => ?_, fun x hx y hy => ?_, fun x hx hk => ?_,
    fun x hx hk hnext => ?_⟩
  · obtain hx | hx := hx
    · exact hp.known x (h.known x hx)
    · exact List.mem_append_left r' hx
  · by_cases hxl : x ∈ l'
    · exact .inr (next_mem_chain hp.mem' hxl hy)
    · have hxK := hx.resolve_right hxl
      rw [hgone x hxK hxl] at hy
      exact .inl (h.next x hxK y hy)
  · by_cases hxl : x ∈ l'
    · exact ⟨_, Set.mem_insert _ _, held_now hp.mem' hh hxl hk⟩
    · have hxK := hx.resolve_right hxl
      obtain ⟨m, hm, hmv⟩ := h.held x hxK ((hkey x hxK).symm.trans hk)
      exact ⟨m, Set.mem_insert_of_mem _ hm, hmv.trans (hp.ext.payload x (hlt x hxK)).symm⟩
  · by_cases hxl : x ∈ l'
    · exact ⟨_, Set.mem_insert _ _, absent_now hp.mem' hxl hk hnext⟩
    · have hxK := hx.resolve_right hxl
      rw [hkey x hxK] at hk
      obtain ⟨m, hm, hmv⟩ := h.absent x hxK hk fun y hy => by
        rw [← hkey y (h.next x hxK y hy)]
        exact hnext y ((hgone x hxK hxl).trans hy)
      exact ⟨m, Set.mem_insert_of_mem _ hm, hmv⟩

end Concurrent

end SplitOrder
