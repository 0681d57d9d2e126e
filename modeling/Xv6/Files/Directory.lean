import Xv6.Files.Content
import Xv6.Structures.Records
import Xv6.Structures.Runs

set_option autoImplicit false

/-! # Directories

A directory is a file of entries of sixteen bytes: an inode number, which is zero for a free entry,
and a name in fourteen bytes, padded with zeros and not terminated if it fills them. `dirlookup`
compares with `strncmp`, `dirlink` writes with `strncpy`, and `sys_unlink` writes zeros over an
entry. A string of C is here the list of its bytes; what is read behind the end is the zero that
ends it.

What a directory is for is stated as `Names`: a map from names, cut to fourteen bytes, to inode
numbers. -/

namespace Xv6.Files

open Function List Option Structures

def DIRSIZ : Nat := 14

/-- `sizeof(struct dirent)`. -/
def DIRENT : Nat := 16

/-! ## Strings -/

def strncmp : List Byte → List Byte → Nat → Int
  | _, _, 0 => 0
  | p, q, n + 1 =>
    if p.headD 0 ≠ 0 ∧ p.headD 0 = q.headD 0 then strncmp p.tail q.tail n
    else (p.headD 0).toNat - (q.headD 0).toNat

/-- The `n` bytes that `strncpy` writes. -/
def strncpy : List Byte → Nat → List Byte
  | _, 0 => []
  | t, n + 1 => if t.headD 0 = 0 then List.replicate (n + 1) 0 else t.headD 0 :: strncpy t.tail n

def namecmp (s t : List Byte) : Int := strncmp s t DIRSIZ

theorem strncpy_length (t : List Byte) (n : Nat) : (strncpy t n).length = n := by
  induction n generalizing t with
  | zero => rfl
  | succ n ih =>
    rw [strncpy]
    split
    · exact length_replicate
    · rw [length_cons, ih]

theorem toNat_sub_eq_zero {a b : Byte} : ((a.toNat : Int) - b.toNat = 0) ↔ a = b := by
  rw [← UInt8.toNat_inj]
  omega

theorem strncmp_eq_zero (p q : List Byte) (n : Nat) : strncmp p q n = 0 ↔ strncpy p n = strncpy q n := by
  induction n generalizing p q with
  | zero => exact ⟨fun _ => rfl, fun _ => rfl⟩
  | succ n ih =>
    rw [strncmp, strncpy, strncpy]
    by_cases hp : p.headD 0 = 0
    · rw [if_neg (fun h => h.1 hp), if_pos hp, toNat_sub_eq_zero, hp]
      by_cases hq : q.headD 0 = 0
      · rw [if_pos hq, hq]
        exact ⟨fun _ => rfl, fun _ => rfl⟩
      · rw [if_neg hq, replicate_succ]
        exact ⟨fun h => absurd h.symm hq, fun h => absurd (List.cons.inj h).1.symm hq⟩
    rw [if_neg hp]
    by_cases hpq : p.headD 0 = q.headD 0
    · rw [if_pos ⟨hp, hpq⟩, if_neg (hpq ▸ hp), ih, hpq]
      exact ⟨fun h => by rw [h], fun h => (List.cons.inj h).2⟩
    rw [if_neg (fun h => hpq h.2), toNat_sub_eq_zero]
    refine ⟨fun h => absurd h hpq, fun h => ?_⟩
    by_cases hq : q.headD 0 = 0
    · rw [if_pos hq, replicate_succ] at h
      exact absurd (List.cons.inj h).1 hp
    · rw [if_neg hq] at h
      exact (List.cons.inj h).1

theorem strncpy_zeros (n k : Nat) : strncpy (List.replicate k 0) n = List.replicate n 0 := by
  cases n with
  | zero => rfl
  | succ n =>
    rw [strncpy, if_pos]
    cases k <;> rfl

theorem strncpy_strncpy (t : List Byte) (n : Nat) : strncpy (strncpy t n) n = strncpy t n := by
  induction n generalizing t with
  | zero => rfl
  | succ n ih =>
    rw [strncpy.eq_2 t]
    split
    · exact strncpy_zeros _ _
    · next h =>
      rw [strncpy, headD_cons, if_neg h, tail_cons, ih]

/-- A string has no zero in it, and as the name of a file it is not empty. -/
abbrev Name : Type := { n : List Byte // n ≠ [] ∧ 0 ∉ n }

/-- What of a name counts. -/
def Name.cut (n : Name) : List Byte := n.val.take DIRSIZ

theorem strncpy_take (t : List Byte) (n : Nat) (h : 0 ∉ t) : (strncpy t n).takeWhile (· ≠ 0) = t.take n := by
  induction n generalizing t with
  | zero => rfl
  | succ n ih =>
    rw [strncpy]
    cases t with
    | nil => simp
    | cons a t =>
      obtain ⟨ha, ht⟩ : 0 ≠ a ∧ 0 ∉ t := by simpa using h
      rw [headD_cons, if_neg (Ne.symm ha), tail_cons,
        takeWhile_cons_of_pos (by simpa using Ne.symm ha), ih t ht, take_succ_cons]

theorem strncpy_cut (t : List Byte) (n : Nat) : strncpy (t.take n) n = strncpy t n := by
  induction n generalizing t with
  | zero => rfl
  | succ n ih =>
    cases t with
    | nil => rfl
    | cons a t => rw [take_succ_cons, strncpy, strncpy, headD_cons, headD_cons, tail_cons, tail_cons, ih]

/-- The name as it stands in an entry. -/
def Name.stored (n : Name) : List Byte := strncpy n.val DIRSIZ

theorem Name.stored_eq_iff (n n' : Name) : n.stored = n'.stored ↔ n.cut = n'.cut := by
  constructor
  · intro h
    have := congrArg (List.takeWhile (· ≠ 0)) h
    rwa [stored, stored, strncpy_take _ _ n.2.2, strncpy_take _ _ n'.2.2] at this
  intro h
  have := congrArg (strncpy · DIRSIZ) h
  dsimp only [cut] at this
  rwa [strncpy_cut, strncpy_cut] at this

/-! ## Entries -/

/-- `struct dirent`. -/
structure Dirent where
  inum : Nat
  name : List Byte
  inum_lt : inum < 2 ^ 16
  name_length : name.length = DIRSIZ

namespace Dirent

def bytes (e : Dirent) : List Byte := UInt8.ofNat e.inum :: UInt8.ofNat (e.inum / 256) :: e.name

theorem bytes_length (e : Dirent) : e.bytes.length = DIRENT := by
  simp [bytes, e.name_length, DIRSIZ, DIRENT]

/-- `memset(&de, 0, sizeof(de))`. -/
def zero : Dirent := ⟨0, List.replicate DIRSIZ 0, by decide, rfl⟩

end Dirent

/-- The inode number in the bytes of an entry. -/
def inumOf (bs : List Byte) : Nat := (bs.getD 0 0).toNat + 256 * (bs.getD 1 0).toNat

def nameOf (bs : List Byte) : List Byte := bs.drop 2

theorem inumOf_bytes (e : Dirent) : inumOf e.bytes = e.inum := by
  have := e.inum_lt
  simp only [inumOf, Dirent.bytes, getD_cons_zero, getD_cons_succ, UInt8.toNat_ofNat']
  omega

theorem nameOf_bytes (e : Dirent) : nameOf e.bytes = e.name := rfl

/-! ## The functions on directories -/

/-- Memory of the kernel, to which and from which a copy always succeeds. -/
def toKernel (mem : List Byte) (dst : Nat) (bs : List Byte) : List Byte × Bool := (splice mem dst bs, true)

def fromKernel (src : List Byte) (addr n : Nat) : List Byte × Bool := ((src.drop addr).take n, true)

/-- Read the entry at `off` into `de`. -/
def readEntry (dp : List Byte) (off : Nat) (msg : String) : Except String (List Byte) :=
  let (de, r) := readi toKernel dp [] 0 off DIRENT
  if r ≠ DIRENT then .error msg else .ok de

def writeEntry (dp : List Byte) (de : List Byte) (off : Nat) (msg : String) : Except String (List Byte) :=
  let (dp, r) := writei (fromKernel de) dp 0 off DIRENT
  if r ≠ DIRENT then .error msg else .ok dp

def dirlookupFrom (dp name : List Byte) : Nat → Nat → Except String (Option (Nat × Nat))
  | 0, _ => .ok none
  | fuel + 1, off =>
    if off < dp.length then do
      let de ← readEntry dp off "dirlookup read"
      if inumOf de = 0 then dirlookupFrom dp name fuel (off + DIRENT)
      else if namecmp name (nameOf de) = 0 then .ok (some (inumOf de, off))
      else dirlookupFrom dp name fuel (off + DIRENT)
    else .ok none

/-- The inode number of a name, with the offset of its entry. -/
def dirlookup (dp name : List Byte) : Except String (Option (Nat × Nat)) :=
  dirlookupFrom dp name dp.length 0

/-- The loop of `dirlink` that looks for a free entry. -/
def freeEntryFrom (dp : List Byte) : Nat → Nat → Except String Nat
  | 0, off => .ok off
  | fuel + 1, off =>
    if off < dp.length then do
      let de ← readEntry dp off "dirlink read"
      if inumOf de = 0 then .ok off else freeEntryFrom dp fuel (off + DIRENT)
    else .ok off

/-- The bytes of the entry that `dirlink` writes. -/
def linkBytes (name : List Byte) (inum : Nat) : List Byte :=
  UInt8.ofNat inum :: UInt8.ofNat (inum / 256) :: strncpy name DIRSIZ

def dirlink (dp name : List Byte) (inum : Nat) : Except String (List Byte × Int) := do
  match ← dirlookup dp name with
  | some _ => .ok (dp, -1)
  | none =>
    let off ← freeEntryFrom dp dp.length 0
    let dp ← writeEntry dp (linkBytes name inum) off "dirlink"
    .ok (dp, 0)

/-- `"."` and `".."`. -/
def dot : List Byte := [46]

def dotdot : List Byte := [46, 46]

/-- What `sys_unlink` does to the directory; `removable` says whether the inode that the name has
    may be removed, which a directory may only if it is empty. -/
def unlink (dp name : List Byte) (removable : Nat → Bool) : Except String (List Byte × Int) := do
  if namecmp name dot = 0 ∨ namecmp name dotdot = 0 then .ok (dp, -1)
  else
    match ← dirlookup dp name with
    | none => .ok (dp, -1)
    | some (inum, off) =>
      if removable inum then
        let dp ← writeEntry dp Dirent.zero.bytes off "unlink: writei"
        .ok (dp, 0)
      else .ok (dp, -1)

/-! ## One entry at a time -/

variable {off k j : Nat} {dp : List Byte} {e : Dirent} {n : Name}

theorem piece_entry (h : off % DIRENT = 0) : piece off DIRENT = DIRENT := by
  unfold piece
  simp only [DIRENT, BSIZE] at h ⊢
  omega

theorem readEntry_ok (msg : String) (hoff : off % DIRENT = 0)
    (hend : off + DIRENT ≤ dp.length) (hmax : dp.length ≤ MAXFILE * BSIZE) :
    readEntry dp off msg = .ok ((dp.drop off).take DIRENT) := by
  have hmax' : dp.length ≤ 274432 := hmax
  have hturn : readiFrom toKernel dp DIRENT [] 0 off DIRENT 0 = ((dp.drop off).take DIRENT, DIRENT) := by
    rw [show DIRENT = 15 + 1 from rfl, readiFrom, if_neg (by decide),
      show 15 + 1 = DIRENT from rfl, piece_entry hoff]
    simp [toKernel, splice, readiFrom]
  have hn : (if off + DIRENT > dp.length then dp.length - off else DIRENT) = DIRENT := if_neg (by omega)
  have hc : ¬ (off > dp.length ∨ (off + DIRENT) % 2 ^ 32 < off) := by
    simp only [DIRENT] at hend ⊢
    omega
  have hread : readi toKernel dp [] 0 off DIRENT = ((dp.drop off).take DIRENT, (DIRENT : Int)) := by
    unfold readi
    rw [if_neg hc, hn]
    dsimp only
    rw [hturn]
    rfl
  unfold readEntry
  rw [hread]
  exact if_neg (not_not.2 rfl)

theorem writeEntry_ok {de : List Byte} (msg : String) (hde : de.length = DIRENT)
    (hoff : off % DIRENT = 0) (hle : off ≤ dp.length) (hmax : off + DIRENT ≤ MAXFILE * BSIZE) :
    writeEntry dp de off msg = .ok (splice dp off de) := by
  have hmax' : off + DIRENT ≤ 274432 := hmax
  have htake : (de.drop 0).take DIRENT = de := by rw [drop_zero, ← hde, take_length]
  have hturn : writeiFrom (fromKernel de) DIRENT dp 0 off DIRENT 0 =
    (splice dp off de, off + DIRENT, DIRENT) := by
    rw [show DIRENT = 15 + 1 from rfl, writeiFrom, if_neg (by decide), show 15 + 1 = DIRENT from rfl,
      piece_entry hoff]
    simp only [fromKernel, htake, Nat.sub_self, Nat.zero_add]
    simp [writeiFrom]
  have hc : ¬ (off > dp.length ∨ (off + DIRENT) % 2 ^ 32 < off) := by
    simp only [DIRENT] at hmax' ⊢
    omega
  have hc' : ¬ (off + DIRENT) % 2 ^ 32 > MAXFILE * BSIZE := by
    rw [Nat.mod_eq_of_lt (by omega)]
    omega
  have hlen : (splice dp off de).length ≤ max dp.length (off + DIRENT) := by
    simp only [splice, length_append, length_take, length_drop, hde]
    omega
  have hwrite : writei (fromKernel de) dp 0 off DIRENT = (splice dp off de, (DIRENT : Int)) := by
    unfold writei
    rw [if_neg hc, if_neg hc', hturn]
    simp only [take_of_length_le hlen]
    rfl
  unfold writeEntry
  rw [hwrite]
  exact if_neg (not_not.2 rfl)

/-- The file of a list of entries. -/
def file (ents : List Dirent) : List Byte := ents.flatMap Dirent.bytes

theorem file_length (ents : List Dirent) : (file ents).length = DIRENT * ents.length :=
  Records.length_flatMap Dirent.bytes_length ents

theorem entry_at {ents : List Dirent} (h : ents[k]? = some e) :
    ((file ents).drop (DIRENT * k)).take DIRENT = e.bytes :=
  Records.record_at Dirent.bytes_length h

theorem lt_file_iff {ents : List Dirent} : DIRENT * k < (file ents).length ↔ k < ents.length := by
  rw [file_length]
  simp only [DIRENT]
  omega

section

variable {ents : List Dirent} (hmax : (file ents).length ≤ MAXFILE * BSIZE)

include hmax

theorem readEntry_file (msg : String) {k : Nat} {e : Dirent} (h : ents[k]? = some e) :
    readEntry (file ents) (DIRENT * k) msg = .ok e.bytes := by
  have hk : k < ents.length := (List.getElem?_eq_some_iff.1 h).1
  have hend : DIRENT * k + DIRENT ≤ (file ents).length := by
    rw [file_length]
    simp only [DIRENT]
    omega
  rw [readEntry_ok msg (Nat.mul_mod_right _ _) hend hmax, entry_at h]

theorem dirlookupFrom_file (name : List Byte) (fuel k : Nat) (hfuel : ents.length ≤ k + fuel) :
    (dirlookupFrom (file ents) name fuel (DIRENT * k) = .ok none ∧
      ∀ j e, k ≤ j → ents[j]? = some e → e.inum ≠ 0 → namecmp name e.name ≠ 0) ∨
    ∃ j e, ents[j]? = some e ∧ e.inum ≠ 0 ∧ namecmp name e.name = 0 ∧
      dirlookupFrom (file ents) name fuel (DIRENT * k) = .ok (some (e.inum, DIRENT * j)) := by
  induction fuel generalizing k with
  | zero =>
    refine .inl ⟨rfl, fun j e hj he => ?_⟩
    have := (List.getElem?_eq_some_iff.1 he).1
    omega
  | succ fuel ih =>
    rw [dirlookupFrom]
    by_cases hk : k < ents.length
    · rw [if_pos (lt_file_iff.2 hk)]
      have he : ents[k]? = some ents[k] := getElem?_eq_getElem hk
      rw [readEntry_file hmax _ he]
      simp only [bind, Except.bind, inumOf_bytes, nameOf_bytes]
      have hnext := ih (k + 1) (by omega)
      rw [show DIRENT * (k + 1) = DIRENT * k + DIRENT from rfl] at hnext
      -- an entry that is passed over does not match
      have hpass : (ents[k].inum ≠ 0 → namecmp name ents[k].name ≠ 0) →
          (dirlookupFrom (file ents) name fuel (DIRENT * k + DIRENT) = .ok none ∧
            ∀ j e, k + 1 ≤ j → ents[j]? = some e → e.inum ≠ 0 → namecmp name e.name ≠ 0) →
          (dirlookupFrom (file ents) name fuel (DIRENT * k + DIRENT) = .ok none ∧
            ∀ j e, k ≤ j → ents[j]? = some e → e.inum ≠ 0 → namecmp name e.name ≠ 0) := by
        rintro hno ⟨hnone, hrest⟩
        refine ⟨hnone, fun j e hj hje => ?_⟩
        rcases Nat.eq_or_lt_of_le hj with rfl | hj
        · cases he.symm.trans hje
          exact hno
        · exact hrest j e hj hje
      by_cases hfree : ents[k].inum = 0
      · rw [if_pos hfree]
        exact hnext.imp_left (hpass fun h => absurd hfree h)
      rw [if_neg hfree]
      by_cases hname : namecmp name ents[k].name = 0
      · rw [if_pos hname]
        exact .inr ⟨k, _, he, hfree, hname, rfl⟩
      · rw [if_neg hname]
        exact hnext.imp_left (hpass fun _ => hname)
    · rw [if_neg (fun h => hk (lt_file_iff.1 h))]
      refine .inl ⟨rfl, fun j e hj he => ?_⟩
      have := (List.getElem?_eq_some_iff.1 he).1
      omega

theorem freeEntryFrom_file (fuel k : Nat) (hk : k ≤ ents.length) (hfuel : ents.length ≤ k + fuel)
    (hused : ∀ j e, j < k → ents[j]? = some e → e.inum ≠ 0) :
    ∃ j, freeEntryFrom (file ents) fuel (DIRENT * k) = .ok (DIRENT * j) ∧
      ((∃ e, ents[j]? = some e ∧ e.inum = 0) ∨
        (j = ents.length ∧ ∀ (i : Nat) (e : Dirent), ents[i]? = some e → e.inum ≠ 0)) := by
  induction fuel generalizing k with
  | zero =>
    refine ⟨k, rfl, .inr ⟨by omega, fun i e he => hused i e ?_ he⟩⟩
    have := (List.getElem?_eq_some_iff.1 he).1
    omega
  | succ fuel ih =>
    rw [freeEntryFrom]
    by_cases hlt : k < ents.length
    · rw [if_pos (lt_file_iff.2 hlt)]
      have he : ents[k]? = some ents[k] := getElem?_eq_getElem hlt
      rw [readEntry_file hmax _ he]
      simp only [bind, Except.bind, inumOf_bytes]
      by_cases hfree : ents[k].inum = 0
      · rw [if_pos hfree]
        exact ⟨k, rfl, .inl ⟨_, he, hfree⟩⟩
      rw [if_neg hfree]
      refine ih (k + 1) hlt (by omega) fun j e hj hje => ?_
      rcases Nat.lt_succ_iff_lt_or_eq.1 hj with hj | rfl
      · exact hused j e hj hje
      · cases he.symm.trans hje
        exact hfree
    rw [if_neg (fun h => hlt (lt_file_iff.1 h))]
    refine ⟨k, rfl, .inr ⟨by omega, fun i e he => hused i e ?_ he⟩⟩
    have := (List.getElem?_eq_some_iff.1 he).1
    omega

end

theorem splice_file {ents : List Dirent} (hj : j ≤ ents.length) (e : Dirent) :
    ∃ ents', splice (file ents) (DIRENT * j) e.bytes = file ents' ∧
      (∀ i, ents'[i]? = if i = j then some e else ents[i]?) ∧
      ents'.length = max ents.length (j + 1) := by
  unfold splice
  rw [Dirent.bytes_length]
  rcases Nat.lt_or_eq_of_le hj with hlt | rfl
  · refine ⟨ents.set j e, Records.set_record Dirent.bytes_length e hlt, fun i => ?_, ?_⟩
    · rw [getElem?_set]
      by_cases hi : i = j
      · rw [if_pos hi.symm, if_pos hi, if_pos hlt]
      · rw [if_neg (Ne.symm hi), if_neg hi]
    · rw [length_set]
      omega
  refine ⟨ents ++ [e], Records.add_record Dirent.bytes_length ents e, fun i => ?_, ?_⟩
  · rw [getElem?_append]
    by_cases hi : i = ents.length
    · subst hi
      simp
    rw [if_neg hi]
    split
    · rfl
    · rw [getElem?_eq_none (by simp; omega), getElem?_eq_none (by omega)]
  · simp

/-! ## What a directory is for -/

/-- The inode number that a name has, cut to fourteen bytes; `0` if it has none. -/
abbrev Names : Type := List Byte → Nat

inductive Op
  | dirlink (name : Name) (inum : { i : Nat // 0 < i ∧ i < 2 ^ 16 })
  | unlink (name : Name) (removable : Nat → Bool)

def Op.name : Op → Name
  | .dirlink n _ | .unlink n _ => n

/-- The operation on the map, and its result. -/
def Names.exec (m : Names) : Op → Names × Int
  | .dirlink n i => if m n.cut ≠ 0 then (m, -1) else (update m n.cut i, 0)
  | .unlink n removable =>
    if n.val = dot ∨ n.val = dotdot then (m, -1)
    else if m n.cut = 0 ∨ removable (m n.cut) = false then (m, -1)
    else (update m n.cut 0, 0)

def exec (dp : List Byte) : Op → Except String (List Byte × Int)
  | .dirlink n i => dirlink dp n.val i
  | .unlink n removable => unlink dp n.val removable

def dirStep (dp : List Byte) (op : Op) : Option (List Byte) :=
  match exec dp op with
  | .ok (dp, _) => some dp
  | .error _ => none

/-- The map after the operations so far. -/
def noteOp (_ : List Byte) (op : Op) (m : Names) : Names := (m.exec op).1

/-- The file holds the map: every entry in use has a name and the number that the map gives it, no
    two have one name, and every name of the map has an entry. -/
structure Holds (ents : List Dirent) (m : Names) : Prop where
  named : ∀ (k : Nat) (e : Dirent), ents[k]? = some e → e.inum ≠ 0 →
    ∃ n : Name, e.name = n.stored ∧ m n.cut = e.inum
  unique : ∀ (j k : Nat) (e e' : Dirent), ents[j]? = some e → ents[k]? = some e' → e.inum ≠ 0 →
    e'.inum ≠ 0 → e.name = e'.name → j = k
  found : ∀ n : Name, m n.cut ≠ 0 →
    ∃ (k : Nat) (e : Dirent), ents[k]? = some e ∧ e.inum = m n.cut ∧ e.name = n.stored

variable {ents : List Dirent} {m : Names}

theorem namecmp_stored (n n' : Name) : namecmp n.val n'.stored = 0 ↔ n.stored = n'.stored := by
  unfold namecmp Name.stored
  rw [strncmp_eq_zero, strncpy_strncpy]

theorem Holds.matches_iff (hh : Holds ents m) (n : Name) (he : ents[k]? = some e)
    (hlive : e.inum ≠ 0) : namecmp n.val e.name = 0 ↔ e.name = n.stored := by
  obtain ⟨n', hn', -⟩ := hh.named k e he hlive
  rw [hn', namecmp_stored]
  exact eq_comm

theorem Holds.dirlookup (hh : Holds ents m) (hmax : (file ents).length ≤ MAXFILE * BSIZE) (n : Name) :
    (m n.cut = 0 ∧ dirlookup (file ents) n.val = .ok none ∧
      ∀ (j : Nat) (e : Dirent), ents[j]? = some e → e.inum ≠ 0 → e.name ≠ n.stored) ∨
    ∃ (k : Nat) (e : Dirent), ents[k]? = some e ∧ e.inum ≠ 0 ∧ m n.cut = e.inum ∧ e.name = n.stored ∧
      dirlookup (file ents) n.val = .ok (some (e.inum, DIRENT * k)) := by
  have hfuel : ents.length ≤ 0 + (file ents).length := by
    rw [file_length]
    simp only [DIRENT]
    omega
  rcases dirlookupFrom_file hmax n.val (file ents).length 0 hfuel with ⟨hnone, hno⟩ |
    ⟨k, e, he, hlive, hcmp, hsome⟩
  · have hno' : ∀ (j : Nat) (e : Dirent), ents[j]? = some e → e.inum ≠ 0 → e.name ≠ n.stored :=
      fun j e he hlive hname => hno j e (Nat.zero_le j) he hlive ((hh.matches_iff n he hlive).2 hname)
    refine .inl ⟨?_, hnone, hno'⟩
    by_contra hm
    obtain ⟨k, e, he, hi, hname⟩ := hh.found n hm
    exact hno' k e he (hi ▸ hm) hname
  have hname := (hh.matches_iff n he hlive).1 hcmp
  obtain ⟨n', hn', hm⟩ := hh.named k e he hlive
  have hcut : n.cut = n'.cut := (Name.stored_eq_iff n n').1 (hname.symm.trans hn')
  exact .inr ⟨k, e, he, hlive, hcut ▸ hm, hname, hsome⟩

variable {ents' : List Dirent}

theorem Holds.put (hh : Holds ents m) (hents : ∀ i, ents'[i]? = if i = j then some e else ents[i]?)
    (hname : e.inum ≠ 0 → e.name = n.stored)
    (hold : ∀ e' : Dirent, ents[j]? = some e' → e'.inum = 0 ∨ e'.name = n.stored)
    (hother : ∀ (i : Nat) (e' : Dirent), i ≠ j → ents[i]? = some e' → e'.inum ≠ 0 → e'.name ≠ n.stored) :
    Holds ents' (update m n.cut e.inum) := by
  have hget : ∀ (i : Nat) (e' : Dirent), ents'[i]? = some e' → i = j ∧ e' = e ∨ i ≠ j ∧ ents[i]? = some e' := by
    intro i e' he'
    rw [hents] at he'
    split at he'
    · next hi => exact .inl ⟨hi, (some.inj he').symm⟩
    · next hi => exact .inr ⟨hi, he'⟩
  refine ⟨fun k e' he' hlive => ?_, fun i k e₁ e₂ h₁ h₂ hl₁ hl₂ heq => ?_, fun n' hn' => ?_⟩
  · rcases hget k e' he' with ⟨-, rfl⟩ | ⟨hk, he'⟩
    · exact ⟨n, hname hlive, update_self ..⟩
    obtain ⟨n', hn', hm⟩ := hh.named k e' he' hlive
    have hne : n'.cut ≠ n.cut := fun h =>
      hother k e' hk he' hlive (hn'.trans ((Name.stored_eq_iff n' n).2 h))
    exact ⟨n', hn', by rw [update_of_ne hne, hm]⟩
  · rcases hget i e₁ h₁ with ⟨rfl, rfl⟩ | ⟨hi, h₁⟩
    · rcases hget k e₂ h₂ with ⟨rfl, -⟩ | ⟨hk, h₂⟩
      · rfl
      · exact absurd (heq.symm.trans (hname hl₁)) (hother k e₂ hk h₂ hl₂)
    rcases hget k e₂ h₂ with ⟨rfl, rfl⟩ | ⟨-, h₂⟩
    · exact absurd (heq.trans (hname hl₂)) (hother i e₁ hi h₁ hl₁)
    · exact hh.unique i k e₁ e₂ h₁ h₂ hl₁ hl₂ heq
  by_cases hcut : n'.cut = n.cut
  · rw [hcut, update_self] at hn' ⊢
    exact ⟨j, e, by rw [hents, if_pos rfl], rfl, (hname hn').trans ((Name.stored_eq_iff n' n).2 hcut).symm⟩
  rw [update_of_ne hcut] at hn' ⊢
  obtain ⟨k, e', he', hi, hst⟩ := hh.found n' hn'
  -- its entry is not the one that was written
  have hk : k ≠ j := by
    rintro rfl
    rcases hold e' he' with h0 | hst'
    · exact hn' (hi.symm.trans h0)
    · exact hcut ((Name.stored_eq_iff n' n).1 (hst.symm.trans hst'))
  exact ⟨k, e', by rw [hents, if_neg hk, he'], hi, hst⟩

/-! ## The operations -/

def entry (dp : List Byte) (off : Nat) : List Byte := (dp.drop off).take DIRENT

/-- What an operation on the name leaves alone: the entries of other names, and the size if there is
    a free entry. -/
structure Keeps (dp dp' : List Byte) (n : Name) : Prop where
  others : ∀ off, off % DIRENT = 0 → off < dp.length → inumOf (entry dp off) ≠ 0 →
    nameOf (entry dp off) ≠ n.stored → entry dp' off = entry dp off
  reuses : (∃ off, off % DIRENT = 0 ∧ off < dp.length ∧ inumOf (entry dp off) = 0) → dp'.length = dp.length

theorem Keeps.refl (dp : List Byte) (n : Name) : Keeps dp dp n := ⟨fun _ _ _ _ _ => rfl, fun _ => rfl⟩

theorem entry_of_lt (hoff : off % DIRENT = 0) (hlt : off < (file ents).length) :
    ∃ (k : Nat) (e : Dirent), off = DIRENT * k ∧ ents[k]? = some e ∧ entry (file ents) off = e.bytes := by
  obtain ⟨k, rfl⟩ := Nat.dvd_of_mod_eq_zero hoff
  have hk : k < ents.length := lt_file_iff.1 hlt
  have he : ents[k]? = some ents[k] := getElem?_eq_getElem hk
  exact ⟨k, ents[k], rfl, he, entry_at he⟩

theorem Keeps.put (hents : ∀ i, ents'[i]? = if i = j then some e else ents[i]?)
    (hold : ∀ e' : Dirent, ents[j]? = some e' → e'.inum = 0 ∨ e'.name = n.stored)
    (hlen : (∃ (k : Nat) (e' : Dirent), ents[k]? = some e' ∧ e'.inum = 0) → ents'.length = ents.length) :
    Keeps (file ents) (file ents') n := by
  refine ⟨fun off hoff hlt hlive hname => ?_, fun ⟨off, hoff, hlt, hfree⟩ => ?_⟩
  · obtain ⟨k, e', rfl, he', hbytes⟩ := entry_of_lt hoff hlt
    rw [hbytes, inumOf_bytes] at hlive
    rw [hbytes, nameOf_bytes] at hname
    have hk : k ≠ j := by
      rintro rfl
      exact (hold e' he').elim hlive hname
    have he'' : ents'[k]? = some e' := by rw [hents, if_neg hk, he']
    rw [hbytes]
    exact entry_at he''
  obtain ⟨k, e', -, he', hbytes⟩ := entry_of_lt hoff hlt
  rw [hbytes, inumOf_bytes] at hfree
  rw [file_length, file_length, hlen ⟨k, e', he', hfree⟩]

theorem room (hbelow : (file ents).length < MAXFILE * BSIZE) (hj : j ≤ ents.length) :
    DIRENT * j + DIRENT ≤ MAXFILE * BSIZE := by
  rw [file_length] at hbelow
  simp only [DIRENT, MAXFILE, BSIZE, NDIRECT, NINDIRECT] at hbelow ⊢
  omega

theorem writeEntry_file (hbelow : (file ents).length < MAXFILE * BSIZE) (hj : j ≤ ents.length)
    (e : Dirent) (msg : String) :
    ∃ ents', writeEntry (file ents) e.bytes (DIRENT * j) msg = .ok (file ents') ∧
      (∀ i, ents'[i]? = if i = j then some e else ents[i]?) ∧ ents'.length = max ents.length (j + 1) ∧
      (file ents').length ≤ MAXFILE * BSIZE := by
  obtain ⟨ents', hsplice, hents, hlen⟩ := splice_file hj e
  have hle : DIRENT * j ≤ (file ents).length := by
    rw [file_length]
    exact Nat.mul_le_mul_left _ hj
  refine ⟨ents', ?_, hents, hlen, ?_⟩
  · rw [writeEntry_ok msg e.bytes_length (Nat.mul_mod_right _ _) hle (room hbelow hj), hsplice]
  have h₁ := room hbelow hj
  have h₂ := hbelow
  rw [file_length] at h₂ ⊢
  rw [hlen]
  simp only [DIRENT] at h₁ h₂ ⊢
  omega

theorem Holds.dirlink (hh : Holds ents m) (hbelow : (file ents).length < MAXFILE * BSIZE) (n : Name)
    (i : { i : Nat // 0 < i ∧ i < 2 ^ 16 }) :
    ∃ ents', exec (file ents) (.dirlink n i) = .ok (file ents', (m.exec (.dirlink n i)).2) ∧
      Holds ents' (m.exec (.dirlink n i)).1 ∧ (file ents').length ≤ MAXFILE * BSIZE ∧
      Keeps (file ents) (file ents') n := by
  rcases hh.dirlookup hbelow.le n with ⟨hm, hlook, hno⟩ | ⟨k, e, he, hlive, hm, hname, hlook⟩
  · obtain ⟨j, hfree, hj⟩ := freeEntryFrom_file hbelow.le (file ents).length 0 (Nat.zero_le _)
      (by rw [file_length]; simp only [DIRENT]; omega) (fun j _ hj => absurd hj (Nat.not_lt_zero j))
    have hjle : j ≤ ents.length := by
      rcases hj with ⟨e, he, -⟩ | ⟨rfl, -⟩
      · exact (List.getElem?_eq_some_iff.1 he).1.le
      · exact le_refl _
    let e : Dirent := ⟨i.val, n.stored, i.2.2, strncpy_length _ _⟩
    obtain ⟨ents', hwrite, hents, hlen, hmax⟩ := writeEntry_file hbelow hjle e "dirlink"
    have hspec : m.exec (.dirlink n i) = (update m n.cut e.inum, 0) := if_neg (not_not.2 hm)
    have hold : ∀ e' : Dirent, ents[j]? = some e' → e'.inum = 0 ∨ e'.name = n.stored := by
      intro e' he'
      rcases hj with ⟨e'', he'', h0⟩ | ⟨rfl, -⟩
      · cases he'.symm.trans he''
        exact .inl h0
      · rw [getElem?_eq_none (le_refl _)] at he'
        cases he'
    rw [hspec]
    refine ⟨ents', ?_, hh.put hents (fun _ => rfl) hold fun k e' _ he' hlive => hno k e' he' hlive, hmax,
      .put hents hold ?_⟩
    · change Files.dirlink (file ents) n.val i.val = _
      unfold Files.dirlink
      rw [hlook]
      simp only [bind, Except.bind]
      rw [show DIRENT * 0 = 0 from rfl] at hfree
      rw [hfree]
      simp only
      rw [show linkBytes n.val i.val = e.bytes from rfl, hwrite]
    rintro ⟨k, e', he', h0⟩
    rcases hj with ⟨e'', he'', -⟩ | ⟨rfl, hall⟩
    · have := (List.getElem?_eq_some_iff.1 he'').1
      omega
    · exact absurd h0 (hall k e' he')
  · have hspec : m.exec (.dirlink n i) = (m, -1) := if_pos (by rw [hm]; exact hlive)
    rw [hspec]
    refine ⟨ents, ?_, hh, hbelow.le, .refl _ _⟩
    change Files.dirlink (file ents) n.val i.val = _
    unfold Files.dirlink
    rw [hlook]
    rfl

theorem namecmp_const (n : Name) {d : List Byte} (hd : d ≠ [] ∧ 0 ∉ d) (hlen : d.length < DIRSIZ) :
    namecmp n.val d = 0 ↔ n.val = d := by
  unfold namecmp
  rw [strncmp_eq_zero]
  change n.stored = Name.stored ⟨d, hd⟩ ↔ _
  rw [Name.stored_eq_iff]
  change n.val.take DIRSIZ = d.take DIRSIZ ↔ n.val = d
  rw [take_of_length_le hlen.le]
  constructor
  · intro h
    have hl : (n.val.take DIRSIZ).length < DIRSIZ := by rw [h]; exact hlen
    rw [length_take] at hl
    rwa [take_of_length_le (by omega)] at h
  · intro h
    rw [h, take_of_length_le hlen.le]

theorem Holds.unlink (hh : Holds ents m) (hbelow : (file ents).length < MAXFILE * BSIZE) (n : Name)
    (removable : Nat → Bool) :
    ∃ ents', exec (file ents) (.unlink n removable) = .ok (file ents', (m.exec (.unlink n removable)).2) ∧
      Holds ents' (m.exec (.unlink n removable)).1 ∧ (file ents').length ≤ MAXFILE * BSIZE ∧
      Keeps (file ents) (file ents') n := by
  have hcmp : (namecmp n.val dot = 0 ∨ namecmp n.val dotdot = 0) ↔ (n.val = dot ∨ n.val = dotdot) := by
    rw [namecmp_const n (by decide) (by decide), namecmp_const n (by decide) (by decide)]
  change ∃ ents', Files.unlink (file ents) n.val removable = _ ∧ _
  unfold Files.unlink
  simp only [Names.exec]
  by_cases hdots : n.val = dot ∨ n.val = dotdot
  · rw [if_pos (hcmp.2 hdots), if_pos hdots]
    exact ⟨ents, rfl, hh, hbelow.le, .refl _ _⟩
  rw [if_neg (fun h => hdots (hcmp.1 h)), if_neg hdots]
  rcases hh.dirlookup hbelow.le n with ⟨hm, hlook, -⟩ | ⟨k, e, he, hlive, hm, hname, hlook⟩
  · rw [hlook, if_pos (.inl hm)]
    exact ⟨ents, rfl, hh, hbelow.le, .refl _ _⟩
  rw [hlook, hm]
  simp only [bind, Except.bind]
  by_cases hrem : removable e.inum = true
  · rw [if_pos hrem, if_neg (by rw [hrem]; simpa using hlive)]
    have hk : k < ents.length := (List.getElem?_eq_some_iff.1 he).1
    obtain ⟨ents', hwrite, hents, hlen, hmax⟩ :=
      writeEntry_file hbelow hk.le Dirent.zero "unlink: writei"
    have hold : ∀ e' : Dirent, ents[k]? = some e' → e'.inum = 0 ∨ e'.name = n.stored := by
      intro e' he'
      cases he.symm.trans he'
      exact .inr hname
    rw [hwrite]
    refine ⟨ents', rfl, hh.put hents (fun h => absurd rfl h) hold ?_, hmax, .put hents hold fun _ => by omega⟩
    intro j e' hj he' hlive' hname'
    exact hj (hh.unique j k e' e he' he hlive' hlive (hname'.trans hname.symm))
  · rw [if_neg hrem, if_pos (.inr (Bool.eq_false_iff.2 hrem))]
    exact ⟨ents, rfl, hh, hbelow.le, .refl _ _⟩

theorem Holds.exec (hh : Holds ents m) (hbelow : (file ents).length < MAXFILE * BSIZE) (op : Op) :
    ∃ ents', exec (file ents) op = .ok (file ents', (m.exec op).2) ∧ Holds ents' (m.exec op).1 ∧
      (file ents').length ≤ MAXFILE * BSIZE ∧ Keeps (file ents) (file ents') op.name := by
  cases op with
  | dirlink n i => exact hh.dirlink hbelow n i
  | unlink n removable => exact hh.unlink hbelow n removable

/-! ## Runs -/

/-- The directory is below the largest size of a file. -/
def below (dp : List Byte) (_ : Op) (_ : Names) : Prop := dp.length < MAXFILE * BSIZE

instance below.decidable (dp : List Byte) (op : Op) (m : Names) : Decidable (below dp op m) :=
  inferInstanceAs (Decidable (dp.length < MAXFILE * BSIZE))

/-- **A directory is a finite map from names to inode numbers.** After any operations on a new
    directory that keep it below the largest size of a file: its size is a multiple of the size of
    an entry; no name is in two entries in use; `dirlookup` gives what the map gives, with the
    offset of the entry; and any next operation gives the result that it has on the map, leaves the
    entries of other names alone, and does not make the directory longer if there is a free
    entry. -/
theorem directory_map {tr : List Op} {dp : List Byte}
    (hbelow : Along dirStep noteOp below [] (fun _ => 0) tr) (hrun : runs dirStep [] tr = some dp) :
    dp.length % DIRENT = 0 ∧
    (∀ off off', off % DIRENT = 0 → off' % DIRENT = 0 → off < dp.length → off' < dp.length →
      inumOf (entry dp off) ≠ 0 → inumOf (entry dp off') ≠ 0 →
      nameOf (entry dp off) = nameOf (entry dp off') → off = off') ∧
    (∀ n : Name,
      (history dirStep noteOp [] (fun _ => 0) tr n.cut = 0 ∧ dirlookup dp n.val = .ok none) ∨
      ∃ off, dirlookup dp n.val = .ok (some (history dirStep noteOp [] (fun _ => 0) tr n.cut, off)) ∧
        off % DIRENT = 0 ∧ off < dp.length ∧ nameOf (entry dp off) = n.stored ∧
        inumOf (entry dp off) = history dirStep noteOp [] (fun _ => 0) tr n.cut ∧
        inumOf (entry dp off) ≠ 0) ∧
    (dp.length < MAXFILE * BSIZE → ∀ op, ∃ dp',
      exec dp op = .ok (dp', (Names.exec (history dirStep noteOp [] (fun _ => 0) tr) op).2) ∧
      Keeps dp dp' op.name) := by
  have hinit : Holds [] (fun _ => 0) := ⟨nofun, nofun, fun _ h => absurd rfl h⟩
  obtain ⟨ents, rfl, hmax, hh⟩ := hbelow.invariant
    (fun dp m => ∃ ents, dp = file ents ∧ (file ents).length ≤ MAXFILE * BSIZE ∧ Holds ents m) hrun
    ⟨[], rfl, Nat.zero_le _, hinit⟩ (by
      rintro dp op dp' m hstep hlt ⟨ents, rfl, -, hh⟩
      obtain ⟨ents', hexec, hh', hmax', -⟩ := hh.exec hlt op
      unfold dirStep at hstep
      rw [hexec] at hstep
      exact ⟨ents', (some.inj hstep).symm, hmax', hh'⟩)
  refine ⟨?_, ?_, ?_, ?_⟩
  · rw [file_length]
    exact Nat.mul_mod_right _ _
  · intro off off' hoff hoff' hlt hlt' hlive hlive' hname
    obtain ⟨k, e, rfl, he, hb⟩ := entry_of_lt hoff hlt
    obtain ⟨k', e', rfl, he', hb'⟩ := entry_of_lt hoff' hlt'
    rw [hb, inumOf_bytes] at hlive
    rw [hb', inumOf_bytes] at hlive'
    rw [hb, hb', nameOf_bytes, nameOf_bytes] at hname
    rw [hh.unique k k' e e' he he' hlive hlive' hname]
  · intro n
    rcases hh.dirlookup hmax n with ⟨hm, hlook, -⟩ | ⟨k, e, he, hlive, hm, hname, hlook⟩
    · exact .inl ⟨hm, hlook⟩
    have hk : k < ents.length := (List.getElem?_eq_some_iff.1 he).1
    have hb : entry (file ents) (DIRENT * k) = e.bytes := entry_at he
    rw [hm]
    refine .inr ⟨DIRENT * k, hlook, Nat.mul_mod_right _ _, lt_file_iff.2 hk, ?_, ?_, ?_⟩
    · rw [hb, nameOf_bytes, hname]
    · rw [hb, inumOf_bytes]
    · rw [hb, inumOf_bytes]
      exact hlive
  · intro hlt op
    obtain ⟨ents', hexec, -, -, hkeeps⟩ := hh.exec hlt op
    exact ⟨file ents', hexec, hkeeps⟩

/-- Fifteen bytes, of which fourteen count, a name of one byte, and the first one again. -/
def longName : Name := ⟨List.replicate 15 120, by decide⟩

def shortName : Name := ⟨[97], by decide⟩

def cutName : Name := ⟨List.replicate 14 120, by decide⟩

def reuseRun : List Op :=
  [.dirlink longName ⟨7, by decide⟩, .dirlink shortName ⟨8, by decide⟩, .unlink cutName (fun _ => true),
    .dirlink cutName ⟨9, by decide⟩]

theorem directory_map_reuse : ∃ dp, runs dirStep [] reuseRun = some dp ∧ dp.length = 2 * DIRENT ∧
    (∃ off, dirlookup dp longName.val = .ok (some (9, off)) ∧ nameOf (entry dp off) = longName.stored) ∧
    ∃ dp', exec dp (.dirlink longName ⟨10, by decide⟩) = .ok (dp', -1) := by
  have hsome : (runs dirStep [] reuseRun).map List.length = some (2 * DIRENT) := by decide +kernel
  have hbelow : Along dirStep noteOp below [] (fun _ => 0) reuseRun := by decide +kernel
  have hnine : history dirStep noteOp [] (fun _ => 0) reuseRun longName.cut = 9 := by decide +kernel
  have hspec : (Names.exec (history dirStep noteOp [] (fun _ => 0) reuseRun)
      (.dirlink longName ⟨10, by decide⟩)).2 = -1 := by decide +kernel
  cases hrun : runs dirStep [] reuseRun with
  | none =>
    rw [hrun] at hsome
    cases hsome
  | some dp =>
    rw [hrun] at hsome
    have hlen : dp.length = 2 * DIRENT := some.inj hsome
    obtain ⟨-, -, hlook, hnext⟩ := directory_map hbelow hrun
    obtain ⟨dp', hexec, -⟩ := hnext (by rw [hlen]; decide) (.dirlink longName ⟨10, by decide⟩)
    rw [hspec] at hexec
    refine ⟨dp, rfl, hlen, ?_, dp', hexec⟩
    rcases hlook longName with ⟨h0, -⟩ | ⟨off, hoff, -, -, hname, -⟩
    · cases h0.symm.trans hnine
    · rw [hnine] at hoff
      exact ⟨off, hoff, hname⟩

end Xv6.Files
