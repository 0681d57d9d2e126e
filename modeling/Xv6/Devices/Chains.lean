import Xv6.Devices.Disk

set_option autoImplicit false

/-! # Every descriptor is free or in one chain

The invariant of the disk driver. A thread has a chain from `alloc3_desc` to `free_chain`, and the
chains of the threads are disjoint. The chains that have been made available and whose buffers are
still marked are in one of three places: in the available ring behind what the device has taken,
with the device, or in the used ring behind what `virtio_disk_intr` has handled. Since no chain is
in two places, neither ring is ever full, and so its entries stay as they are until they have been
read, also where a 16-bit index wraps around. -/

namespace Xv6.Virtio

open Function List Option Structures

variable {T B C : Type}

/-! ## Descriptors -/

section Descriptors

variable {d d' : Disk B} {i : Fin NUM}

theorem allocDesc_some (h : allocDesc d = some (d', i)) :
    d.free i = true ∧ d' = { d with free := update d.free i false } := by
  unfold allocDesc at h
  split at h
  · next j hj =>
    cases h
    exact ⟨find?_some hj, rfl⟩
  · cases h

theorem freeDesc_of_used (h : d.free i = false) : freeDesc d i = .ok { d with
      desc := update d.desc i {}
      free := update d.free i true } := by
  rw [freeDesc, dif_pos i.isLt, if_neg (by rw [h]; decide)]

theorem restore_two {f : Fin NUM → Bool} {i j : Fin NUM} (hi : f i = true) (hj : f j = true) :
    update (update (update (update f i false) j false) i true) j true = f := by
  funext k
  by_cases hkj : k = j
  · rw [hkj, update_self, hj]
  rw [update_of_ne hkj]
  by_cases hki : k = i
  · rw [hki, update_self, hi]
  · rw [update_of_ne hki, update_of_ne hkj, update_of_ne hki]

theorem alloc3Desc_cases (d : Disk B) :
    (∃ desc, alloc3Desc d = .ok ({ d with desc := desc }, none) ∧
      ∀ i, d.free i = false → desc i = d.desc i) ∨
    (∃ i0 i1 i2, i0 ≠ i1 ∧ i0 ≠ i2 ∧ i1 ≠ i2 ∧
      d.free i0 = true ∧ d.free i1 = true ∧ d.free i2 = true ∧
      alloc3Desc d = .ok ({ d with
        free := update (update (update d.free i0 false) i1 false) i2 false },
        some (i0, i1, i2))) := by
  unfold alloc3Desc
  split
  · exact .inl ⟨d.desc, rfl, fun _ _ => rfl⟩
  next d₁ i0 h0 =>
  obtain ⟨hf0, rfl⟩ := allocDesc_some h0
  split
  · refine .inl ⟨update d.desc i0 {}, ?_, fun i hi => ?_⟩
    · rw [freeDesc_of_used (update_self ..)]
      show Except.ok ({ d with desc := _, free := _ }, none) = _
      rw [update_idem, ← hf0, update_eq_self]
    · exact update_of_ne (fun heq => by rw [heq, hf0] at hi; exact nomatch hi) _ _
  next d₂ i1 h1 =>
  obtain ⟨hf1, rfl⟩ := allocDesc_some h1
  change update d.free i0 false i1 = true at hf1
  have hne : i1 ≠ i0 := by
    rintro rfl
    rw [update_self] at hf1
    cases hf1
  rw [update_of_ne hne] at hf1
  split
  · refine .inl ⟨update (update d.desc i0 {}) i1 {}, ?_, fun i hi => ?_⟩
    · have h₁ : (update (update d.free i0 false) i1 false) i0 = false := by
        rw [update_of_ne hne.symm, update_self]
      have h₂ : (update (update (update d.free i0 false) i1 false) i0 true) i1 = false := by
        rw [update_of_ne hne, update_self]
      rw [freeDesc_of_used h₁]
      show (freeDesc _ _ >>= _) = _
      rw [freeDesc_of_used h₂]
      show Except.ok ({ d with desc := _, free := _ }, none) = _
      rw [restore_two hf0 hf1]
    have hi0 : i ≠ i0 := fun heq => by rw [heq, hf0] at hi; exact nomatch hi
    have hi1 : i ≠ i1 := fun heq => by rw [heq, hf1] at hi; exact nomatch hi
    rw [update_of_ne hi1, update_of_ne hi0]
  next d₃ i2 h2 =>
  obtain ⟨hf2, rfl⟩ := allocDesc_some h2
  change update (update d.free i0 false) i1 false i2 = true at hf2
  have hne1 : i2 ≠ i1 := by
    rintro rfl
    rw [update_self] at hf2
    cases hf2
  rw [update_of_ne hne1] at hf2
  have hne0 : i2 ≠ i0 := by
    rintro rfl
    rw [update_self] at hf2
    cases hf2
  rw [update_of_ne hne0] at hf2
  exact .inr ⟨i0, i1, i2, hne.symm, hne0.symm, hne1.symm, hf0, hf1, hf2, rfl⟩

/-- The descriptors of a chain are different. -/
structure Chain.Distinct (c : Chain B) : Prop where
  h01 : c.i0 ≠ c.i1
  h02 : c.i0 ≠ c.i2
  h12 : c.i1 ≠ c.i2

/-- The descriptors of a chain are formatted, and its buffer is recorded at its head. -/
structure Filled (d : Disk B) (c : Chain B) : Prop where
  desc0 : d.desc c.i0 = ⟨.op c.i0, 16, VRING_DESC_F_NEXT, BitVec.ofNat 16 c.i1⟩
  desc1 : d.desc c.i1 = ⟨.data c.b, BitVec.ofNat 32 BSIZE,
    (if c.write then 0 else VRING_DESC_F_WRITE) ||| VRING_DESC_F_NEXT, BitVec.ofNat 16 c.i2⟩
  desc2 : d.desc c.i2 = ⟨.status c.i0, 1, VRING_DESC_F_WRITE, 0⟩
  buf : (d.info c.i0).b = some c.b

theorem toNat_index (i : Fin NUM) : (BitVec.ofNat 16 i.val).toNat = i.val := by
  have hlt : i.val < 8 := i.isLt
  rw [BitVec.toNat_ofNat]
  omega

theorem freeChainFrom_succ {n : Nat} (h : d.free i = false) : freeChainFrom (n + 1) d i
      = if (d.desc i).flags &&& VRING_DESC_F_NEXT ≠ 0 then
          freeChainFrom n { d with
            desc := update d.desc i {}
            free := update d.free i true } (d.desc i).next.toNat
        else .ok { d with
            desc := update d.desc i {}
            free := update d.free i true } := by
  rw [freeChainFrom, dif_pos i.isLt, freeDesc_of_used h]
  rfl

theorem freeChain_filled {c : Chain B} (hd : c.Distinct)
    (hused : ∀ i, i ∈ c.descs → d.free i = false)
    (h0 : d.desc c.i0 = ⟨.op c.i0, 16, VRING_DESC_F_NEXT, BitVec.ofNat 16 c.i1⟩)
    (h1 : d.desc c.i1 = ⟨.data c.b, BitVec.ofNat 32 BSIZE,
      (if c.write then 0 else VRING_DESC_F_WRITE) ||| VRING_DESC_F_NEXT, BitVec.ofNat 16 c.i2⟩)
    (h2 : d.desc c.i2 = ⟨.status c.i0, 1, VRING_DESC_F_WRITE, 0⟩) :
    freeChain d c.i0 = .ok { d with
      desc := update (update (update d.desc c.i0 {}) c.i1 {}) c.i2 {}
      free := update (update (update d.free c.i0 true) c.i1 true) c.i2 true } := by
  have hf0 : d.free c.i0 = false := hused _ (by simp)
  have hf1 : d.free c.i1 = false := hused _ (by simp)
  have hf2 : d.free c.i2 = false := hused _ (by simp)
  have hflags : ((if c.write then 0 else VRING_DESC_F_WRITE) ||| VRING_DESC_F_NEXT) &&& VRING_DESC_F_NEXT
      ≠ 0 := by
    cases c.write <;> decide
  show freeChainFrom (7 + 1) d c.i0 = _
  rw [freeChainFrom_succ hf0, h0, if_pos (show VRING_DESC_F_NEXT &&& VRING_DESC_F_NEXT ≠ 0 by decide)]
  rw [toNat_index, freeChainFrom_succ (by
    show update d.free c.i0 true c.i1 = false
    rw [update_of_ne hd.h01.symm, hf1])]
  show (if (update d.desc c.i0 {} c.i1).flags &&& _ ≠ 0 then
    freeChainFrom 6 _ (update d.desc c.i0 {} c.i1).next.toNat else _) = _
  rw [update_of_ne hd.h01.symm, h1, if_pos hflags]
  rw [toNat_index, freeChainFrom_succ (by
    show update (update d.free c.i0 true) c.i1 true c.i2 = false
    rw [update_of_ne hd.h12.symm, update_of_ne hd.h02.symm, hf2])]
  show (if (update (update d.desc c.i0 {}) c.i1 {} c.i2).flags &&& _ ≠ 0 then
    _ else _) = _
  rw [update_of_ne hd.h12.symm, update_of_ne hd.h02.symm, h2,
    if_neg (show ¬ (VRING_DESC_F_WRITE &&& VRING_DESC_F_NEXT ≠ 0) by decide)]

end Descriptors

/-! ## The invariant -/

/-- The chain of a thread. -/
def Pc.chain : Pc B → Option (Chain B)
  | .format c | .publish c | .check c | .sleepDisk c => some c
  | _ => none

/-- The chain that a thread has made available. -/
def Pc.sent : Pc B → Option (Chain B)
  | .check c | .sleepDisk c => some c
  | _ => none

/-- The thread has `vdisk_lock`. -/
def Pc.locked : Pc B → Bool
  | .alloc .. | .format _ | .publish _ | .check _ => true
  | _ => false

/-- The chains of the threads: a descriptor is in use if it is in one of them, and then in only
    one. -/
structure Chains (s : State T B C) : Prop where
  lock : ∀ t, (s.pc t).locked = true ↔ s.lock = some (.inl t)
  bufs : ∀ t t' b, (s.pc t).buf = some b → (s.pc t').buf = some b → t = t'
  distinct : ∀ t c, (s.pc t).chain = some c → c.Distinct
  used : ∀ i, s.disk.free i = false ↔ ∃ t c, (s.pc t).chain = some c ∧ i ∈ c.descs
  apart : ∀ t t' c c' i, (s.pc t).chain = some c → (s.pc t').chain = some c' → i ∈ c.descs →
    i ∈ c'.descs → t = t'
  filled : ∀ t c, s.pc t = .publish c ∨ (s.pc t).sent = some c → Filled s.disk c
  ready : ∀ t c, s.pc t = .publish c →
    s.busy c.b = true ∧ s.disk.availRing (slot NUM s.disk.availIdx) = c.i0

/-- The chains in the available ring are `pa` and those in the used ring are `pu`; `done` says of
    the chain that was last made available at a head whether the device has completed it. -/
structure Inv (s : State T B C) (done : Fin NUM → Bool) (pa pu : List (Fin NUM)) : Prop extends Chains s where
  avail : Queued s.disk.availRing s.lastAvail pa
  availIdx : s.disk.availIdx = s.lastAvail + BitVec.ofNat 16 pa.length
  device : Queued s.disk.deviceRing s.disk.usedIdx pu
  deviceIdx : s.disk.deviceIdx = s.disk.usedIdx + BitVec.ofNat 16 pu.length
  nodup : (pa ++ s.taken ++ pu).Nodup
  pending : ∀ h, h ∈ pa ++ s.taken ++ pu ↔
    ∃ t c, (s.pc t).sent = some c ∧ c.i0 = h ∧ s.busy c.b = true
  status : ∀ h, h ∈ pu → (s.disk.info h).status = 0 ∧ done h = true
  completed : ∀ t c, (s.pc t).sent = some c → s.busy c.b = false → done c.i0 = true

theorem Pc.chain_of_sent {p : Pc B} {c : Chain B} (h : p.sent = some c) : p.chain = some c := by
  cases p <;> first | exact h | cases h

theorem Pc.buf_of_chain {p : Pc B} {c : Chain B} (h : p.chain = some c) : p.buf = some c.b := by
  cases p <;> first | (obtain rfl := some.inj h; rfl) | cases h

theorem chain_of_filled {p : Pc B} {c : Chain B} (h : p = .publish c ∨ p.sent = some c) : p.chain = some c := by
  rcases h with rfl | h
  · rfl
  · exact Pc.chain_of_sent h

theorem Pc.locked_publish {c : Chain B} : (Pc.publish c).locked = true := rfl

section Steps

variable {s s' : State T B C} {done : Fin NUM → Bool} {pa pu : List (Fin NUM)}

theorem Filled.congr {d d' : Disk B} {c : Chain B} (h : Filled d c)
    (hdesc : ∀ i, i ∈ c.descs → d'.desc i = d.desc i) (hinfo : (d'.info c.i0).b = (d.info c.i0).b) :
    Filled d' c where
  desc0 := by rw [hdesc _ (by simp), h.desc0]
  desc1 := by rw [hdesc _ (by simp), h.desc1]
  desc2 := by rw [hdesc _ (by simp), h.desc2]
  buf := by rw [hinfo, h.buf]

theorem Inv.move (hi : Inv s done pa pu) (hchain : ∀ t, (s'.pc t).chain = (s.pc t).chain)
    (hsent : ∀ t, (s'.pc t).sent = (s.pc t).sent)
    (hpub : ∀ t c, s'.pc t = .publish c → s.pc t = .publish c)
    (hlock : ∀ t, (s'.pc t).locked = true ↔ s'.lock = some (.inl t))
    (hbufs : ∀ t t' b, (s'.pc t).buf = some b → (s'.pc t').buf = some b → t = t')
    (hdisk : s'.disk = s.disk) (hbusy : s'.busy = s.busy) (hlast : s'.lastAvail = s.lastAvail)
    (htaken : s'.taken = s.taken) : Inv s' done pa pu where
  lock := hlock
  bufs := hbufs
  distinct := by simpa only [hchain] using hi.distinct
  used := by simpa only [hchain, hdisk] using hi.used
  apart := by simpa only [hchain] using hi.apart
  filled t c hc := by
    rw [hdisk]
    rw [hsent] at hc
    exact hi.filled t c (hc.imp (hpub t c) id)
  ready t c hc := by
    rw [hdisk, hbusy]
    exact hi.ready t c (hpub t c hc)
  avail := by simpa only [hdisk, hlast] using hi.avail
  availIdx := by simpa only [hdisk, hlast] using hi.availIdx
  device := by simpa only [hdisk] using hi.device
  deviceIdx := by simpa only [hdisk] using hi.deviceIdx
  nodup := by simpa only [htaken] using hi.nodup
  pending := by simpa only [htaken, hsent, hbusy] using hi.pending
  status := by simpa only [hdisk] using hi.status
  completed := by simpa only [hsent, hbusy] using hi.completed

theorem Inv.redesc (hi : Inv s done pa pu) {desc : Fin NUM → Desc B}
    (hdesc : ∀ i, s.disk.free i = false → desc i = s.disk.desc i) :
    Inv { s with disk := { s.disk with desc := desc } } done pa pu :=
  { hi with
    filled := by
      intro t c hc
      exact (hi.filled t c hc).congr
        (fun i hin => hdesc i ((hi.used i).2 ⟨t, c, chain_of_filled hc, hin⟩)) rfl }

variable [DecidableEq T] {t : T} {p old : Pc B} {c : Chain B}

/-- **A thread that has the lock goes on.** It keeps its chain, gets one of free descriptors or
    gives it up, and it fills no other. -/
theorem Chains.moves (hi : Chains s) (hpc : s.pc t = old) (hheld : old.locked = true)
    (hpc' : s'.pc = update s.pc t p) (hlock : s'.lock = if p.locked then s.lock else none)
    (hbuf : p.buf = old.buf ∨ p.buf = none) (hdistinct : ∀ c, p.chain = some c → c.Distinct)
    (hown : ∀ c i, p.chain = some c → i ∈ c.descs → old.chain = some c ∨ s.disk.free i = true)
    (hfree : ∀ i, s'.disk.free i = false ↔ (∃ c, p.chain = some c ∧ i ∈ c.descs) ∨
      s.disk.free i = false ∧ ∀ c, old.chain = some c → i ∉ c.descs)
    (hfilled : ∀ c, p = .publish c ∨ p.sent = some c → Filled s'.disk c)
    (hothers : ∀ c', (∀ c i, old.chain = some c → i ∈ c'.descs → i ∉ c.descs) → Filled s.disk c' →
      Filled s'.disk c')
    (hready : ∀ c, p = .publish c →
      s'.busy c.b = true ∧ s'.disk.availRing (slot NUM s'.disk.availIdx) = c.i0) : Chains s' := by
  subst hpc
  have hpcs : ∀ u, s'.pc u = if u = t then p else s.pc u := fun u => by rw [hpc', update_apply]
  have hone : ∀ u, u ≠ t → (s.pc u).locked = false := fun u hu => by
    have := hi.lock u
    have := hi.lock t
    grind
  refine ⟨fun u => ?_, fun u u' b => ?_, fun u c => ?_, fun i => ?_, fun u u' c c' i => ?_, fun u c => ?_,
    fun u c => ?_⟩
  · have := hi.lock u
    have := hi.lock t
    grind
  · have := hi.bufs
    grind
  · have := hi.distinct
    grind
  · have := hi.used i
    have := hi.apart
    grind
  · have := hi.used i
    have := hi.apart
    grind
  · have := hi.filled u c
    have := hi.apart
    grind [chain_of_filled]
  · have := hone u
    have := @Pc.locked_publish B c
    grind

variable {pc : T → Pc B} {α : Type} {t' : T} {c' : Chain B} {h : Fin NUM}

theorem update_kept {g : Pc B → α} (hpc : pc t = old) (h : g p = g old) (t' : T) :
    g (update pc t p t') = g (pc t') := by
  subst hpc
  by_cases ht : t' = t
  · rw [ht, update_self, h]
  · rw [update_of_ne ht]

section

variable (hi : Inv s done pa pu) (hpc : s.pc t = old)
include hi

include hpc in
theorem lock_given (hold : old.locked = true) (hnew : p.locked = false) (t' : T) :
    (update s.pc t p t').locked = true ↔ (none : Option (T ⊕ C)) = some (.inl t') := by
  have hother := hi.lock t'
  have hmine := hi.lock t
  grind

theorem lock_taken (hfree : s.lock = none) (hnew : p.locked = true) (t' : T) :
    (update s.pc t p t').locked = true ↔ (some (.inl t) : Option (T ⊕ C)) = some (.inl t') := by
  have hother := hi.lock t'
  grind

include hpc in
theorem bufs_kept (hbuf : p.buf = old.buf) (t₁ t₂ : T) (b : B)
    (h₁ : (update s.pc t p t₁).buf = some b) (h₂ : (update s.pc t p t₂).buf = some b) :
    t₁ = t₂ := by
  rw [update_kept hpc hbuf] at h₁ h₂
  exact hi.bufs t₁ t₂ b h₁ h₂

end

theorem Inv.alloc {b : B} {w : Bool} {i0 i1 i2 : Fin NUM} (hi : Inv s done pa pu)
    (hpc : s.pc t = .alloc b w) (h01 : i0 ≠ i1) (h02 : i0 ≠ i2) (h12 : i1 ≠ i2)
    (hf0 : s.disk.free i0 = true) (hf1 : s.disk.free i1 = true) (hf2 : s.disk.free i2 = true) :
    Inv { s with
      pc := update s.pc t (.format ⟨b, w, i0, i1, i2⟩)
      disk := { s.disk with
        free := update (update (update s.disk.free i0 false) i1 false) i2 false } }
      done pa pu := by
  have hsent : ∀ u, (update s.pc t (.format ⟨b, w, i0, i1, i2⟩) u).sent = (s.pc u).sent :=
    update_kept hpc rfl
  refine { hi with
    toChains := hi.moves hpc rfl rfl rfl (.inl rfl) ?_ ?_ (fun i => ?_) nofun (fun _ _ hf => ?_) nofun
    pending := by simpa only [hsent] using hi.pending
    completed := by simpa only [hsent] using hi.completed }
  · rintro c ⟨⟩
    exact ⟨h01, h02, h12⟩
  · rintro c i ⟨⟩ hin
    grind [Chain.descs]
  · simp only [update_apply, Pc.chain]
    grind [Chain.descs]
  · exact hf.congr (fun _ _ => rfl) rfl

section

variable (hi : Inv s done pa pu) (hc : (s.pc t).chain = some c) (hc' : (s.pc t').chain = some c') (ht : t' ≠ t)
include hi hc hc' ht

omit [DecidableEq T] in
theorem Inv.other_buf : c'.b ≠ c.b := fun heq =>
  ht (hi.bufs t' t c.b (heq ▸ Pc.buf_of_chain hc') (Pc.buf_of_chain hc))

omit [DecidableEq T] in
theorem Inv.other_desc {i : Fin NUM} (hin : i ∈ c'.descs) :
    i ∉ c.descs := fun hin' => ht (hi.apart t' t c' c i hc' hc hin hin')

end

omit [DecidableEq T] in
/-- What `Chains.moves` asks of the free descriptors, if the thread keeps its chain. -/
theorem Chains.used_kept (hi : Chains s) (hc : (s.pc t).chain = some c) (i : Fin NUM) : s.disk.free i = false ↔
    (∃ c', some c = some c' ∧ i ∈ c'.descs) ∨ s.disk.free i = false ∧ ∀ c', some c = some c' →
      i ∉ c'.descs := by
  have := hi.used i
  simp only [some.injEq, exists_eq_left', forall_eq']
  grind

theorem Chain.head_mem (c : Chain B) : c.i0 ∈ c.descs := mem_cons_self

omit [DecidableEq T] in
theorem Inv.not_pending (hi : Inv s done pa pu) (hc : (s.pc t).chain = some c)
    (hsent : (s.pc t).sent = none) : c.i0 ∉ pa ++ s.taken ++ pu := by
  intro hin
  obtain ⟨t', c', hs', hh, -⟩ := (hi.pending c.i0).1 hin
  have ht := hi.apart t' t c' c c.i0 (Pc.chain_of_sent hs') hc (hh ▸ c'.head_mem) c.head_mem
  subst ht
  cases hsent.symm.trans hs'

theorem length_lt {l : List (Fin NUM)} (hnodup : l.Nodup) (hnot : h ∉ l) : l.length < NUM := by
  have hle := (nodup_cons.2 ⟨hnot, hnodup⟩).length_le_card
  rw [Fintype.card_fin, length_cons] at hle
  exact hle

theorem format_filled (blockno : B → BitVec 32) (d : Disk B) (hd : c.Distinct) :
    Filled (format blockno d c) c where
  desc0 := by
    show update (update (update d.desc c.i0 _) c.i1 _) c.i2 _ c.i0 = _
    rw [update_of_ne hd.h02, update_of_ne hd.h01, update_self]
  desc1 := by
    show update (update (update d.desc c.i0 _) c.i1 _) c.i2 _ c.i1 = _
    rw [update_of_ne hd.h12, update_self]
  desc2 := by
    show update (update (update d.desc c.i0 _) c.i1 _) c.i2 _ c.i2 = _
    rw [update_self]
  buf := by
    show (update d.info c.i0 ⟨some c.b, 0xff⟩ c.i0).b = _
    rw [update_self]

theorem update_descs {f : Fin NUM → α} {x y z : α} {i : Fin NUM} (h : i ∉ c.descs) :
    update (update (update f c.i0 x) c.i1 y) c.i2 z i = f i := by
  simp only [Chain.descs, mem_cons, not_mem_nil, or_false, not_or] at h
  rw [update_of_ne h.2.2, update_of_ne h.2.1, update_of_ne h.1]

theorem ne_head {i : Fin NUM} (h : i ∉ c.descs) : i ≠ c.i0 := fun heq => h (heq ▸ c.head_mem)

variable [DecidableEq B]

theorem Inv.format (hi : Inv s done pa pu) (blockno : B → BitVec 32) (hpc : s.pc t = .format c) :
    Inv { s with
      pc := update s.pc t (.publish c)
      disk := Virtio.format blockno s.disk c
      busy := update s.busy c.b true } done pa pu := by
  have hc : (s.pc t).chain = some c := by rw [hpc]; rfl
  have hnot := hi.not_pending hc (by rw [hpc]; rfl)
  have hsent : ∀ u, (update s.pc t (.publish c) u).sent = (s.pc u).sent := update_kept hpc rfl
  -- the thread itself has made nothing available yet
  have hbusy : ∀ u c', (s.pc u).sent = some c' → update s.busy c.b true c'.b = s.busy c'.b := by
    intro u c' hs
    refine update_of_ne (hi.other_buf hc (Pc.chain_of_sent hs) ?_) _ _
    rintro rfl
    rw [hpc] at hs
    cases hs
  have hlen : pa.length < NUM := length_lt hi.nodup.of_append_left.of_append_left
    fun hin => hnot (mem_append_left _ (mem_append_left _ hin))
  refine { hi with
    toChains := hi.moves hpc rfl rfl rfl (.inl rfl) ?_ (fun _ _ h _ => .inl h) (fun i => ?_) ?_ ?_ ?_
    avail := ?_, pending := fun h => ?_, status := ?_, completed := fun u c' => ?_ }
  · rintro c ⟨⟩
    exact hi.distinct t _ hc
  · exact hi.used_kept hc i
  · intro c' hc'
    obtain rfl : c = c' := some.inj (chain_of_filled hc')
    exact format_filled blockno s.disk (hi.distinct t c hc)
  · intro c' hout hf
    have hnot : ∀ i, i ∈ c'.descs → i ∉ c.descs := fun i => hout c i rfl
    refine hf.congr (fun i hin => update_descs (hnot i hin)) ?_
    show (update s.disk.info c.i0 _ c'.i0).b = _
    rw [update_of_ne (ne_head (hnot _ c'.head_mem))]
  · rintro c' ⟨⟩
    exact ⟨update_self .., update_self ..⟩
  · show Queued (update s.disk.availRing (slot NUM s.disk.availIdx) c.i0) _ _
    refine hi.avail.update fun k hk => ?_
    rw [hi.availIdx]
    exact slot_ne (by decide) _ hk hlen
  · rw [hi.pending]
    simp only [hsent]
    grind
  · intro h hin
    have hne : h ≠ c.i0 := fun heq => hnot (heq ▸ mem_append_right _ hin)
    show (update s.disk.info c.i0 _ h).status = 0 ∧ _
    rw [update_of_ne hne]
    exact hi.status h hin
  · have := hi.completed u c'
    simp only [hsent]
    grind

omit [DecidableEq B] in
theorem Inv.publish (hi : Inv s done pa pu) (hpc : s.pc t = .publish c) : Inv { s with
      pc := update s.pc t (.check c)
      disk := { s.disk with availIdx := s.disk.availIdx + 1 } }
      (update done c.i0 false) (pa ++ [c.i0]) pu := by
  have hc : (s.pc t).chain = some c := by rw [hpc]; rfl
  have hnosent : (s.pc t).sent = none := by rw [hpc]; rfl
  have hnot := hi.not_pending hc hnosent
  obtain ⟨hbusy, hring⟩ := hi.ready t c hpc
  have hpcs : ∀ u, update s.pc t (.check c) u = if u = t then .check c else s.pc u := fun u => update_apply ..
  refine { hi with
    toChains := hi.moves hpc rfl rfl rfl (.inl rfl) ?_ (fun _ _ h _ => .inl h) (fun i => ?_) ?_
      (fun _ _ hf => hf.congr (fun _ _ => rfl) rfl) nofun
    avail := ?_, availIdx := ?_, nodup := ?_, pending := fun h => ?_, status := ?_,
      completed := fun u c' => ?_ }
  · rintro c ⟨⟩
    exact hi.distinct t _ hc
  · exact hi.used_kept hc i
  · intro c' hc'
    obtain rfl : c = c' := some.inj (chain_of_filled hc')
    exact (hi.filled t c (.inl hpc)).congr (fun _ _ => rfl) rfl
  · refine queued_concat.2 ⟨hi.avail, ?_⟩
    rw [← hi.availIdx]
    exact hring
  · show s.disk.availIdx + 1 = _
    rw [hi.availIdx, length_append, length_singleton, BitVec.ofNat_add, BitVec.add_assoc]
    rfl
  · have hperm : (c.i0 :: (pa ++ s.taken ++ pu)).Perm (pa ++ [c.i0] ++ s.taken ++ pu) := by
      refine perm_iff_count.2 fun h => ?_
      simp only [count_append, count_cons, count_nil]
      omega
    exact hperm.nodup (nodup_cons.2 ⟨hnot, hi.nodup⟩)
  · have := hi.pending h
    simp only [mem_append, mem_singleton, hpcs] at this ⊢
    grind [Pc.sent]
  · intro h hin
    have hne : h ≠ c.i0 := fun heq => hnot (heq ▸ mem_append_right _ hin)
    rw [update_of_ne hne]
    exact hi.status h hin
  · have := hi.completed u c'
    have hhead : (s.pc u).sent = some c' → u ≠ t → c'.i0 ≠ c.i0 := fun hs hu =>
      ne_head (hi.other_desc hc (Pc.chain_of_sent hs) hu c'.head_mem)
    simp only [hpcs, update_apply]
    grind [Pc.sent]

omit [DecidableEq B] in
theorem Inv.finish (hi : Inv s done pa pu) (hpc : s.pc t = .check c) (hb : s.busy c.b = false) :
    Inv (C := C) { s with
      pc := update s.pc t .idle
      lock := none
      disk := { s.disk with
        info := update s.disk.info c.i0 { s.disk.info c.i0 with b := none }
        desc := update (update (update s.disk.desc c.i0 {}) c.i1 {}) c.i2 {}
        free := update (update (update s.disk.free c.i0 true) c.i1 true) c.i2 true } }
      done pa pu := by
  have hc : (s.pc t).chain = some c := by rw [hpc]; rfl
  have hpcs : ∀ u, update s.pc t .idle u = if u = t then .idle else s.pc u := fun u => update_apply ..
  refine { hi with
    toChains := hi.moves hpc rfl rfl rfl (.inr rfl) nofun nofun (fun i => ?_) nofun (fun c' hout hf => ?_) nofun
    pending := fun h => ?_, status := fun h hin => ?_, completed := fun u c' => ?_ }
  · simp only [update_apply, Pc.chain]
    grind [Chain.descs]
  · have hnot : ∀ i, i ∈ c'.descs → i ∉ c.descs := fun i => hout c i rfl
    refine hf.congr (fun i hin => update_descs (hnot i hin)) ?_
    show (update s.disk.info c.i0 _ c'.i0).b = _
    rw [update_of_ne (ne_head (hnot _ c'.head_mem))]
  · -- the buffer of the chain that is given up is not marked any more
    have := hi.pending h
    simp only [hpcs]
    grind [Pc.sent]
  · show (update s.disk.info c.i0 _ h).status = 0 ∧ _
    have := hi.status h hin
    simp only [update_apply]
    grind
  · have := hi.completed u c'
    simp only [hpcs]
    grind [Pc.sent]

omit [DecidableEq T] [DecidableEq B] in
theorem Inv.owner (hi : Inv s done pa pu) (hin : h ∈ pa ++ s.taken ++ pu) :
    ∃ t c, (s.pc t).sent = some c ∧ c.i0 = h ∧ s.busy c.b = true ∧ Filled s.disk c := by
  obtain ⟨t, c, hs, hh, hb⟩ := (hi.pending h).1 hin
  exact ⟨t, c, hs, hh, hb, hi.filled t c (.inr hs)⟩

omit [DecidableEq T] in
theorem Inv.handle (hi : Inv s done pa (h :: pu)) (hs : (s.pc t).sent = some c) (hh : c.i0 = h) :
    Inv { s with
      busy := update s.busy c.b false
      disk := { s.disk with usedIdx := s.disk.usedIdx + 1 } } done pa pu := by
  have hc := Pc.chain_of_sent hs
  have hmove : (h :: (pa ++ s.taken ++ pu)).Nodup := by
    refine List.Perm.nodup ?_ hi.nodup
    refine perm_iff_count.2 fun x => ?_
    simp only [count_append, count_cons]
    omega
  have hnot := (nodup_cons.1 hmove).1
  -- only this thread works on the buffer, and only its chain has the head
  have hbuf : ∀ u c', (s.pc u).chain = some c' → u ≠ t → update s.busy c.b false c'.b = s.busy c'.b :=
    fun u c' hc' hu => update_of_ne (hi.other_buf hc hc' hu) _ _
  have hhead : ∀ u c', (s.pc u).sent = some c' → u ≠ t → c'.i0 ≠ c.i0 := fun u c' hs' hu =>
    ne_head (hi.other_desc hc (Pc.chain_of_sent hs') hu c'.head_mem)
  refine { hi with
    filled := fun u c' hc' => (hi.filled u c' hc').congr (fun _ _ => rfl) rfl
    ready := fun u c' hpc => ?_, device := hi.device.2, deviceIdx := ?_, nodup := (nodup_cons.1 hmove).2
    pending := fun x => ?_, status := fun x hx => hi.status x (mem_cons_of_mem _ hx),
      completed := fun u c' => ?_ }
  · have hpc : s.pc u = .publish c' := hpc
    have hu : u ≠ t := by
      rintro rfl
      rw [hpc] at hs
      cases hs
    obtain ⟨hb, hring⟩ := hi.ready u c' hpc
    exact ⟨(hbuf u c' (by rw [hpc]; rfl) hu).trans hb, hring⟩
  · show s.disk.deviceIdx = _
    rw [hi.deviceIdx, length_cons, counter_succ]
  · have := hi.pending x
    have := update_self (β := fun _ => Bool) c.b false s.busy
    simp only [mem_append] at hnot this ⊢
    grind [Pc.chain_of_sent]
  · have := hi.completed u c'
    have := (hi.status h mem_cons_self).2
    grind [Pc.chain_of_sent]

omit [DecidableEq T] [DecidableEq B] in
theorem Inv.take (hi : Inv s done (h :: pa) pu) :
    Inv { s with lastAvail := s.lastAvail + 1, taken := h :: s.taken } done pa pu := by
  have hperm : (h :: pa ++ s.taken ++ pu).Perm (pa ++ (h :: s.taken) ++ pu) := by
    refine perm_iff_count.2 fun x => ?_
    simp only [count_append, count_cons]
    omega
  refine { hi with
    avail := hi.avail.2, availIdx := ?_, nodup := hperm.nodup hi.nodup
    pending := fun x => hperm.mem_iff.symm.trans (hi.pending x) }
  rw [hi.availIdx, length_cons, counter_succ]

theorem ofNat_index (i : Fin NUM) : Fin.ofNat NUM (BitVec.ofNat 16 i.val).toNat = i := by
  rw [toNat_index]
  exact Fin.ofNat_val_eq_self i

omit [DecidableEq B] in
theorem Filled.statusDesc {d : Disk B} (h : Filled d c) : (State.statusDesc d c.i0).addr = .status c.i0 := by
  rw [State.statusDesc, h.desc0]
  rw [ofNat_index, h.desc1]
  rw [ofNat_index, h.desc2]

omit [DecidableEq T] [DecidableEq B] in
theorem Inv.complete (hi : Inv s done pa pu) (hin : h ∈ s.taken) :
    Inv { s with disk := State.deviceWrites s.disk h, taken := s.taken.erase h }
      (update done h true) pa (pu ++ [h]) := by
  obtain ⟨t, c, hs, rfl, -, hfilled⟩ :=
    hi.owner (mem_append_left _ (mem_append_right _ hin))
  have hperm : (pa ++ s.taken ++ pu).Perm (pa ++ s.taken.erase c.i0 ++ (pu ++ [c.i0])) := by
    have htaken := perm_cons_erase hin
    refine perm_iff_count.2 fun x => ?_
    have hx := perm_iff_count.1 htaken x
    simp only [count_append, count_cons, count_nil] at hx ⊢
    omega
  have hlen : pu.length < NUM := length_lt hi.nodup.of_append_right fun hpu =>
    disjoint_of_nodup_append hi.nodup (mem_append_right _ hin) hpu
  have hdisk : State.deviceWrites s.disk c.i0 = { s.disk with
      info := update s.disk.info c.i0 { s.disk.info c.i0 with status := 0 }
      deviceRing := update s.disk.deviceRing (slot NUM s.disk.deviceIdx) c.i0
      deviceIdx := s.disk.deviceIdx + 1 } := by
    simp only [State.deviceWrites, hfilled.statusDesc]
  have hinfo : ∀ x, (update s.disk.info c.i0 { s.disk.info c.i0 with status := 0 } x).b
      = (s.disk.info x).b := fun x => by
    by_cases hx : x = c.i0
    · rw [hx, update_self]
    · rw [update_of_ne hx]
  rw [hdisk]
  refine { hi with
    filled := fun t' c' hc' => (hi.filled t' c' hc').congr (fun _ _ => rfl) (hinfo _)
    device := ?_, deviceIdx := ?_, nodup := hperm.nodup hi.nodup
    pending := fun x => hperm.mem_iff.symm.trans (hi.pending x), status := ?_, completed := ?_ }
  · show Queued (update s.disk.deviceRing (slot NUM s.disk.deviceIdx) c.i0) s.disk.usedIdx _
    rw [hi.deviceIdx]
    exact hi.device.push (by decide) hlen
  · show s.disk.deviceIdx + 1 = s.disk.usedIdx + _
    rw [hi.deviceIdx, length_append, length_singleton, BitVec.ofNat_add, BitVec.add_assoc]
    rfl
  · intro x hx
    show (update s.disk.info c.i0 _ x).status = 0 ∧ update done c.i0 true x = true
    by_cases hxc : x = c.i0
    · rw [hxc, update_self, update_self]
      exact ⟨rfl, rfl⟩
    rw [update_of_ne hxc, update_of_ne hxc]
    rcases mem_append.1 hx with hx | hx
    · exact hi.status x hx
    · exact absurd (mem_singleton.1 hx) hxc
  intro t' c' hs' hb'
  by_cases hc' : c'.i0 = c.i0
  · rw [hc', update_self]
  · rw [update_of_ne hc']
    exact hi.completed t' c' hs' hb'

end Steps

end Xv6.Virtio
