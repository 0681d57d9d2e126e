import Xv6.Tree.Making
import Xv6.Tree.Names

set_option autoImplicit false

/-! # What the calls do to the names

The entry that `dirlink` writes is one more name, also when it is written over a free entry, and the
entry that `unlink` clears one less; `.` and `..` stay where they are. -/

namespace Xv6.Tree

open Files Function List Structures

variable {N : Nat} {node node' : Nat → Option Node} {ip d : Nat} {n dp : Node}

/-! ## Entries in use -/

theorem addEntry_perm (e : Dirent) (he : e.inum ≠ 0) (ents : List Dirent) :
    (((addEntry e ents).map Dirent.inum).filter (· ≠ 0)).Perm
      (e.inum :: (ents.map Dirent.inum).filter (· ≠ 0)) := by
  induction ents with
  | nil => simp [addEntry, he]
  | cons e' es ih =>
    rw [addEntry]
    by_cases h0 : e'.inum = 0
    · rw [if_pos h0]
      simp [h0, he]
    rw [if_neg h0]
    simp only [map_cons, filter_cons_of_pos (p := (· ≠ 0)) (decide_eq_true h0)]
    exact (ih.cons _).trans (.swap ..)

variable {k : Nat} {name : List Byte} {x : BitVec 16}

theorem clear_perm {e : Dirent} {ents : List Dirent} (he : ents[k]? = some e) (h0 : e.inum ≠ 0) :
    ((ents.map Dirent.inum).filter (· ≠ 0)).Perm
      (e.inum :: ((ents.set k Dirent.zero).map Dirent.inum).filter (· ≠ 0)) := by
  induction ents generalizing k with
  | nil => cases he
  | cons e' es ih =>
    cases k with
    | zero =>
      cases he
      simp [Dirent.zero, h0]
    | succ k =>
      have hk : es[k]? = some e := by rwa [getElem?_cons_succ] at he
      rw [set_cons_succ, map_cons, map_cons]
      by_cases h0' : e'.inum = 0
      · rw [filter_cons_of_neg (by simp [h0']), filter_cons_of_neg (by simp [h0'])]
        exact ih hk
      · rw [filter_cons_of_pos (by simp [h0']), filter_cons_of_pos (by simp [h0'])]
        exact ((ih hk).cons _).trans (.swap ..)

/-- The entries of a directory behind its first two, which are in use. -/
structure Dots (n : Node) : Prop where
  dir : n.kind = .dir
  split : ∃ e₀ e₁ rest, n.ents = e₀ :: e₁ :: rest ∧ e₀.inum ≠ 0 ∧ e₁.inum ≠ 0 ∧
    e₀.name = strncpy dot DIRSIZ ∧ e₁.name = strncpy dotdot DIRSIZ

theorem take_two {α : Type} {l : List α} {a b : α} (h : l.take 2 = [a, b]) : ∃ rest, l = a :: b :: rest := by
  match l, h with
  | [], h => cases h
  | [_], h => cases h
  | x :: y :: rest, h =>
    obtain ⟨rfl, rfl⟩ := h
    exact ⟨rest, rfl⟩

theorem Graph.hasDots (hg : Graph N node) (hN : N ≤ 2 ^ 16) (hd : node d = some dp)
    (hk : dp.kind = .dir) : Dots dp := by
  obtain ⟨e, htake, he0, hname, -⟩ := hg.dots d dp hd hk
  obtain ⟨hpos, hlt⟩ := hg.range d dp hd
  obtain ⟨rest, hents⟩ := take_two htake
  refine ⟨hk, newEntry dot d, e, rest, hents, ?_, he0, rfl, hname⟩
  change d % 2 ^ 16 ≠ 0
  omega

theorem kids_addEntry (hdots : Dots dp) (e : Dirent) (he : e.inum ≠ 0) :
    (kids { dp with ents := addEntry e dp.ents }).Perm (e.inum :: kids dp) ∧
      (addEntry e dp.ents).take 2 = dp.ents.take 2 := by
  obtain ⟨hk, e₀, e₁, rest, hents, h0, h1, -, -⟩ := hdots
  have hadd : addEntry e dp.ents = e₀ :: e₁ :: addEntry e rest := by
    rw [hents, addEntry, if_neg h0, addEntry, if_neg h1]
  refine ⟨?_, by rw [hadd, hents]; rfl⟩
  unfold kids
  simp only [hadd]
  simp only [if_pos hk, hents, drop_succ_cons, drop_zero]
  exact addEntry_perm e he rest

section

variable (hdots : Dots dp) (h₀ : namecmp name dot ≠ 0) (h₁ : namecmp name dotdot ≠ 0)
    (hl : lookup name dp.ents = some (ip, k))
include hdots h₀ h₁ hl

theorem lookup_behind :
    ∃ e₀ e₁ rest k' e, dp.ents = e₀ :: e₁ :: rest ∧ k = k' + 2 ∧ rest[k']? = some e ∧ e.inum = ip ∧ ip ≠ 0 := by
  obtain ⟨-, e₀, e₁, rest, hents, -, -, hn₀, hn₁⟩ := hdots
  obtain ⟨e, he, hinum, hne, hcmp⟩ := lookup_mem hl
  rw [hents] at he
  -- the stored names compare as the names themselves
  have hstored : ∀ t, namecmp name (strncpy t DIRSIZ) = 0 → namecmp name t = 0 := by
    intro t h
    rw [namecmp, strncmp_eq_zero, strncpy_strncpy] at h
    rw [namecmp, strncmp_eq_zero]
    exact h
  match k, he with
  | 0, he =>
    cases he
    exact absurd (hstored dot (hn₀ ▸ hcmp)) h₀
  | 1, he =>
    cases he
    exact absurd (hstored dotdot (hn₁ ▸ hcmp)) h₁
  | k + 2, he => exact ⟨e₀, e₁, rest, k, e, hents, rfl, he, hinum, hne⟩

theorem kids_clear : (kids dp).Perm (ip :: kids { dp with ents := dp.ents.set k Dirent.zero }) ∧
      (dp.ents.set k Dirent.zero).take 2 = dp.ents.take 2 := by
  obtain ⟨e₀, e₁, rest, k', e, hents, rfl, he, rfl, h0⟩ := lookup_behind hdots h₀ h₁ hl
  have hset : dp.ents.set (k' + 2) Dirent.zero = e₀ :: e₁ :: rest.set k' Dirent.zero := by
    rw [hents, set_cons_succ, set_cons_succ]
  refine ⟨?_, by rw [hset, hents]; rfl⟩
  unfold kids
  simp only [if_pos hdots.dir, hents, drop_succ_cons, drop_zero]
  exact clear_perm he h0

end

/-! ## The two inodes -/

theorem adds_of (n' dp' : Node) (hne : d ≠ ip) (hip : node ip = some n) (hd : node d = some dp)
    (hip' : node' ip = some n') (hd' : node' d = some dp') (hother : ∀ j, j ≠ ip → j ≠ d → node' j = node j)
    (hkind : n'.kind = n.kind) (hkindd : dp'.kind = dp.kind) (hents : n'.ents = n.ents)
    (htake : dp'.ents.take 2 = dp.ents.take 2) (hlink : n'.nlink.toNat = n.nlink.toNat + 1)
    (hlinkd : dp'.nlink.toNat = dp.nlink.toNat + if n.kind = .dir then 1 else 0)
    (hkids : (kids dp').Perm (ip :: kids dp)) : Adds node node' ip d := by
  have hcases : ∀ {R : Nat → Node → Node → Prop}, R ip n n' → R d dp dp' → (∀ j m, j ≠ ip → j ≠ d → R j m m) →
      ∀ j m m', node j = some m → node' j = some m' → R j m m' := by
    intro R h₁ h₂ h₃ j m m' hm hm'
    by_cases hj : j = ip
    · subst hj
      cases hip.symm.trans hm
      cases hip'.symm.trans hm'
      exact h₁
    by_cases hjd : j = d
    · subst hjd
      cases hd.symm.trans hm
      cases hd'.symm.trans hm'
      exact h₂
    rw [hother j hj hjd] at hm'
    cases hm.symm.trans hm'
    exact h₃ j m hj hjd
  refine ⟨fun j => ?_, hcases hkind hkindd fun _ _ _ _ => rfl, hcases (by rw [hents]) htake fun _ _ _ _ => rfl,
    hcases ?_ ?_ ?_, kids dp', ?_, by rw [children_of hd]; exact hkids⟩
  · by_cases hj : j = ip
    · rw [hj, hip, hip']
      rfl
    by_cases hjd : j = d
    · rw [hjd, hd, hd']
      rfl
    · rw [hother j hj hjd]
  · rw [if_pos rfl, if_neg fun h => hne h.1.symm, hlink]
  · rw [if_neg hne, hlinkd, isDir_of hip]
    simp only [true_and, decide_eq_true_eq, Nat.add_zero]
  · intro j m hj hjd
    rw [if_neg hj, if_neg fun h => hjd h.1]
    rfl
  funext j
  by_cases hjd : j = d
  · subst hjd
    rw [update_self, children_of hd']
  rw [update_of_ne hjd]
  by_cases hj : j = ip
  · subst hj
    rw [children_of hip, children_of hip', kids, kids, hkind, hents]
  · rw [children, children, hother j hj hjd]

/-! ## The calls -/

theorem toNat_add_one (hx : x.toNat < 2 ^ 15) : (x + 1).toNat = x.toNat + 1 := by
  rw [BitVec.toNat_add]
  change (x.toNat + 1) % 2 ^ 16 = _
  omega

theorem toNat_sub_one (hx : x ≠ 0) : x.toNat = (x - 1).toNat + 1 := by
  rw [toNat_ne_zero] at hx
  bv_omega

theorem toNat_ne_max (hx : x ≠ 0x7fff) (hlt : x.toNat < 2 ^ 15) : x.toNat + 1 < 2 ^ 15 := by
  bv_omega

theorem kids_of_empty (h : n.kind = .dir → isdirempty n.ents = true) : kids n = [] := by
  unfold kids
  split
  · next hk =>
    have hall := h hk
    rw [isdirempty, all_eq_true] at hall
    rw [filter_eq_nil_iff]
    intro x hx
    obtain ⟨e, he, rfl⟩ := mem_map.1 hx
    have h0 := of_decide_eq_true (hall e he)
    simp [h0]
  · rfl

/-- After a change the tree is as it should be, and no directory but `gone` has lost its links. -/
structure Follows (N : Nat) (node node' : Nat → Option Node) (gone : Option Nat) : Prop where
  graph : Graph N node'
  linked : ∀ j, LinkedDir node j → gone ≠ some j → LinkedDir node' j

section

variable (hg : Graph N node) (hN : N ≤ 2 ^ 16) (hd : node d = some dp) (hk : dp.kind = .dir)

include hg hN hd hk

theorem Graph.addName (hd0 : dp.nlink ≠ 0) (hip : node ip = some n) (hne : d ≠ ip)
    (hlink : n.nlink ≠ 0x7fff) (hlinkd : n.kind = .dir → dp.nlink ≠ 0x7fff)
    (hdir : n.kind = .dir → n.nlink = 0 ∧ ∀ e, n.ents.take 2 = [newEntry dot ip, e] → e.inum = d)
    (name : List Byte) :
    Follows N node (update (update node ip (some { n with nlink := n.nlink + 1 })) d (some { dp with
        nlink := if n.kind = .dir then dp.nlink + 1 else dp.nlink
        ents := addEntry (newEntry name ip) dp.ents })) none := by
  obtain ⟨hpos, hlt⟩ := hg.range ip n hip
  have hinum : (newEntry name ip).inum = ip := Nat.mod_eq_of_lt (by omega)
  have hentry : (newEntry name ip).inum ≠ 0 := by omega
  obtain ⟨hkids, htake⟩ := kids_addEntry (hg.hasDots hN hd hk) (newEntry name ip) hentry
  rw [hinum] at hkids
  have hnlink := toNat_add_one (hg.small ip n hip)
  have hnlinkd : (if n.kind = .dir then dp.nlink + 1 else dp.nlink).toNat =
      dp.nlink.toNat + if n.kind = .dir then 1 else 0 := by
    split
    · exact toNat_add_one (hg.small d dp hd)
    · rfl
  have ha := adds_of { n with nlink := n.nlink + 1 } { dp with
      nlink := if n.kind = .dir then dp.nlink + 1 else dp.nlink
      ents := addEntry (newEntry name ip) dp.ents } hne hip hd
    (show update (update node ip (some { n with nlink := n.nlink + 1 })) d (some { dp with
        nlink := if n.kind = .dir then dp.nlink + 1 else dp.nlink
        ents := addEntry (newEntry name ip) dp.ents }) ip = _ by
      rw [update_of_ne (Ne.symm hne), update_self])
    (update_self ..)
    (fun j hj hjd => by rw [update_of_ne hjd, update_of_ne hj]) rfl rfl rfl htake hnlink hnlinkd hkids
  refine ⟨hg.adds ha hip ⟨dp, hd, hk, hd0⟩ ?_ hdir, fun j hj _ => ha.linkedDir hj⟩
  · intro j m hm
    by_cases hjd : j = d
    · subst hjd
      rw [update_self] at hm
      cases hm
      have hsmall := hg.small j dp hd
      rw [hnlinkd]
      split
      · next hkn => exact toNat_ne_max (hlinkd hkn) hsmall
      · exact hsmall
    rw [update_of_ne hjd] at hm
    by_cases hj : j = ip
    · subst hj
      rw [update_self] at hm
      cases hm
      rw [hnlink]
      exact toNat_ne_max hlink (hg.small j n hip)
    · rw [update_of_ne hj] at hm
      exact hg.small j m hm

theorem Graph.link (hd0 : dp.nlink ≠ 0) (hip : node ip = some n) (hfile : n.kind ≠ .dir)
    (hlink : n.nlink ≠ 0x7fff)
    (name : List Byte) :
    Follows N node (update (update node ip (some { n with nlink := n.nlink + 1 })) d
      (some { dp with ents := addEntry (newEntry name ip) dp.ents })) none := by
  have hne : d ≠ ip := by
    rintro rfl
    exact hfile (Option.some.inj (hip.symm.trans hd) ▸ hk)
  have h := hg.addName hN hd hk hd0 hip hne hlink (fun h => absurd h hfile) (fun h => absurd h hfile) name
  rw [if_neg hfile] at h
  exact h

theorem Graph.make (hd0 : dp.nlink ≠ 0) (hfree : node ip = none) (hpos : 0 < ip) (hlt : ip < N) {kind : Kind}
    (hlinkd : kind = .dir → dp.nlink ≠ 0x7fff) (name : List Byte) (major minor : BitVec 16) :
    Follows N node (update (update node ip (some (newNode ip d kind major minor))) d
      (some (newParent dp name ip kind))) none := by
  have hne : d ≠ ip := by
    rintro rfl
    cases hfree.symm.trans hd
  have hdpos := hg.range d dp hd
  have hents : (newNode ip d kind major minor).ents.drop 2 = [] := by
    unfold newNode
    split <;> rfl
  have hdots : kind = .dir → (newNode ip d kind major minor).ents.take 2 =
    [newEntry dot ip, newEntry dotdot d] := by
    intro h
    unfold newNode
    rw [if_pos h]
    rfl
  -- the inode is there first without the name
  have halloc : Graph N (update node ip (some { newNode ip d kind major minor with nlink := 0 })) := by
    refine hg.alloc hfree hpos hlt rfl ?_ fun h => ⟨newEntry dotdot d, hdots h, ?_, rfl⟩
    · unfold kids
      simp only [hents, map_nil, filter_nil, ite_self]
    · change d % 2 ^ 16 ≠ 0
      omega
  have hd' : update node ip (some { newNode ip d kind major minor with nlink := 0 }) d = some dp := by
    rw [update_of_ne hne, hd]
  have hmax : (0 : BitVec 16) ≠ 0x7fff := by decide
  have h := halloc.addName hN hd' hk hd0 (update_self ..) hne hmax hlinkd (fun h => ⟨rfl, fun e he => ?_⟩) name
  · rw [update_idem] at h
    refine ⟨h.graph, fun j hj hgone => h.linked j ?_ hgone⟩
    obtain ⟨m, hm, hkm, h0⟩ := hj
    have hji : j ≠ ip := by
      rintro rfl
      cases hfree.symm.trans hm
    exact ⟨m, by rw [update_of_ne hji]; exact hm, hkm, h0⟩
  obtain ⟨-, he⟩ := List.cons.inj ((hdots h).symm.trans he)
  cases he
  exact Nat.mod_eq_of_lt (by omega)

theorem Graph.unlink {name : List Byte} {k : Nat} (h₀ : namecmp name dot ≠ 0) (h₁ : namecmp name dotdot ≠ 0)
    (hl : lookup name dp.ents = some (ip, k)) (hip : node ip = some n)
    (hempty : n.kind = .dir → isdirempty n.ents = true) :
    Follows N node (update (update node d (some { dp with
        ents := dp.ents.set k Dirent.zero
        nlink := if n.kind = .dir then dp.nlink - 1 else dp.nlink })) ip
      (some { n with nlink := n.nlink - 1 })) (some ip) := by
  obtain ⟨hkids, htake⟩ := kids_clear (hg.hasDots hN hd hk) h₀ h₁ hl
  have hmem : ip ∈ children node d := by
    rw [children_of hd, hkids.mem_iff]
    exact mem_cons_self
  have hne : d ≠ ip := by
    rintro rfl
    cases hip.symm.trans hd
    rw [children_of hd, kids_of_empty hempty] at hmem
    exact not_mem_nil hmem
  have hnlink := toNat_sub_one (toNat_ne_zero.2 (hg.nlink_pos hmem hip))
  obtain ⟨dp', hdp', -, hd0⟩ := hg.linkedDir_of_child hmem
  cases hd.symm.trans hdp'
  have hnlinkd : dp.nlink.toNat = (if n.kind = .dir then dp.nlink - 1 else dp.nlink).toNat +
      if n.kind = .dir then 1 else 0 := by
    split
    · exact toNat_sub_one hd0
    · rfl
  have hd' : update (update node d (some { dp with
      ents := dp.ents.set k Dirent.zero
      nlink := if n.kind = .dir then dp.nlink - 1 else dp.nlink })) ip (some { n with nlink := n.nlink - 1 }) d =
      some { dp with
        ents := dp.ents.set k Dirent.zero
        nlink := if n.kind = .dir then dp.nlink - 1 else dp.nlink } := by
    rw [update_of_ne hne, update_self]
  have ha := adds_of n dp hne (update_self ..) hd' hip hd
    (fun j hj hjd => by rw [update_of_ne hj, update_of_ne hjd]) rfl rfl rfl htake.symm hnlink hnlinkd
    hkids
  refine ⟨hg.removes ha fun _ => ?_, fun j hj hgone => hg.removes_linkedDir ha hj fun h => hgone (h ▸ rfl)⟩
  rw [children_of hip, kids_of_empty hempty]

end

end Xv6.Tree
