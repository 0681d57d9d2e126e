import Xv6.Files.Offset

set_option autoImplicit false

/-! # The chunks of a write

`filewrite` cuts a write into transactions of at most `maxChunk` bytes, which need not begin at the
beginning of a block. From memory that is mapped they leave the file as one `writei` would: both put
the bytes over what is there (`splice`), and two neighbouring splices are one. -/

namespace Xv6.Files

open BitVec Function List Structures Open

/-! ## Splices -/

variable {c bs bs' data : List Byte} {off addr k m : Nat}

theorem splice_nil : splice c off [] = c := by
  simp [splice]

theorem splice_length (h : off ≤ c.length) : (splice c off bs).length = max c.length (off + bs.length) := by
  simp only [splice, length_append, length_take, length_drop]
  omega

theorem splice_splice (h : off ≤ c.length) :
    splice (splice c off bs) (off + bs.length) bs' = splice c off (bs ++ bs') := by
  have hlen : (c.take off ++ bs).length = off + bs.length := by
    rw [length_append, length_take, Nat.min_eq_left h]
  unfold splice
  rw [← hlen, take_left, ← drop_drop, drop_left, drop_drop, hlen, length_append,
    ← List.append_assoc, Nat.add_assoc]

theorem length_range (h : k + m ≤ data.length) : ((data.drop k).take m).length = m := by
  rw [length_take, length_drop]
  omega

/-! ## One `writei` -/

/-- The bytes at `addr` can be read. -/
def Mapped (copyin : Nat → Nat → List Byte × Bool) (addr : Nat) (data : List Byte) : Prop :=
  ∀ k m, k + m ≤ data.length → copyin (addr + k) m = ((data.drop k).take m, true)

variable {copyin : Nat → Nat → List Byte × Bool}

theorem writeiFrom_mapped (hm : Mapped copyin addr data) (fuel k rest tot : Nat) (hfuel : rest ≤ fuel)
    (hend : k + rest ≤ data.length) (hoff : off ≤ c.length) :
    writeiFrom copyin fuel c (addr + k) off rest tot =
      (splice c off ((data.drop k).take rest), off + rest, tot + rest) := by
  induction fuel generalizing c k off rest tot with
  | zero =>
    obtain rfl : rest = 0 := by omega
    simp [writeiFrom, splice_nil]
  | succ fuel ih =>
    unfold writeiFrom
    split
    · next h => simp [h, splice_nil]
    next hrest =>
    have hpos := @piece_pos off rest hrest
    have hle := piece_le off rest
    generalize piece off rest = m at hpos hle
    have hlen := @length_range data k m (by omega)
    have hnext := @ih (splice c off ((data.drop k).take m)) (off + m) (k + m) (rest - m) (tot + m) (by omega)
      (by omega) (by rw [splice_length hoff, hlen]; omega)
    have hjoin : (data.drop k).take m ++ (data.drop (k + m)).take (rest - m) = (data.drop k).take rest := by
      rw [← drop_drop, ← take_add, Nat.add_sub_cancel' hle]
    have hsplice := @splice_splice c ((data.drop k).take m) ((data.drop (k + m)).take (rest - m)) off hoff
    rw [hlen, hjoin] at hsplice
    simp only [hm k m (by omega), Nat.add_assoc addr, hnext, hsplice]
    congr 2 <;> omega

theorem writei_mapped (hm : Mapped copyin addr data) (hend : k + m ≤ data.length) (hoff : off ≤ c.length)
    (hfit : off + m ≤ MAXFILE * BSIZE) :
    writei copyin c (addr + k) off m = (splice c off ((data.drop k).take m), (m : Int)) := by
  have hmax : MAXFILE * BSIZE < 2 ^ 31 := by decide
  have hint : toInt m = m := by
    rw [toInt, toInt_eq_toNat_of_lt] <;> rw [toNat_ofNat] <;> omega
  have hguard : ¬ (off > c.length ∨ (off + m) % 2 ^ 32 < off) := by omega
  rw [writei, if_neg hguard, if_neg (by omega), writeiFrom_mapped hm m k m 0 (Nat.le_refl m) hend hoff]
  simp only [Nat.zero_add, hint]
  rw [take_of_length_le (Nat.le_of_eq (by rw [splice_length hoff, length_range hend]))]

/-! ## The loop of `filewrite` -/

variable {T M : Type} [DecidableEq T] {u : Copies T M} {s s' : Open T M} {t : T}

/-- The call returns if the lock is free and the thread is left to itself. -/
theorem Open.run_returns {n i : Int} (fuel : Nat) (hfuel : (n - i).toNat ≤ fuel) (hpc : s.pc t = .loop addr n i)
    (hlock : s.lock = none) :
    ∃ k s' r, runs (Open.step u) s (List.replicate k (.run t)) = some s' ∧ s'.pc t = .ret r := by
  induction fuel generalizing s i with
  | zero =>
    refine ⟨1, s.at_ t (.ret (if i = n then n else -1)), _, ?_, update_self ..⟩
    simp [runs, step, run, hpc, if_neg (show ¬ i < n by omega)]
  | succ fuel ih =>
    by_cases hlt : i < n
    · obtain ⟨n1, hn1⟩ : ∃ n1, (if n - i > maxChunk then maxChunk else n - i) = n1 := ⟨_, rfl⟩
      have hpos : 0 < n1 := by
        rw [← hn1, show maxChunk = 3072 from rfl]
        split <;> omega
      obtain ⟨s₁, hruns₁, hpc₁⟩ : ∃ s₁, (∀ tr, runs (Open.step u) s (List.replicate 3 (.run t) ++ tr) =
          runs (Open.step u) s₁ tr) ∧ s₁.pc t = .io (.chunk addr n i n1) := by
        simp only [List.replicate, List.cons_append, List.nil_append, runs, step, run, hpc,
          if_pos hlt, hn1, at_,
          update_self, hlock, if_true]
        exact ⟨_, fun _ => rfl, update_self ..⟩
      obtain ⟨k, r, s₂, hruns₂, hpc₂, hlock₂⟩ :
        ∃ k r s₂, (∀ tr, runs (Open.step u) s₁ (List.replicate k (.run t) ++ tr) =
          runs (Open.step u) s₂ tr) ∧ s₂.pc t = .endOp addr n i n1 r ∧ s₂.lock = none := by
        by_cases hr : (s₁.doIo u t (.chunk addr n i n1)).2 > 0
        · refine ⟨4, ?_⟩
          simp only [List.replicate, List.cons_append, List.nil_append, runs, step, run, hpc₁, if_pos hr, at_,
            update_self]
          exact ⟨_, _, fun _ => rfl, update_self .., rfl⟩
        · refine ⟨2, ?_⟩
          simp only [List.replicate, List.cons_append, List.nil_append, runs, step, run, hpc₁, if_neg hr, at_,
            update_self]
          exact ⟨_, _, fun _ => rfl, update_self .., rfl⟩
      by_cases hr : r = n1
      · obtain ⟨m, s', r', hruns', hret⟩ :=
          @ih (s₂.at_ t (.loop addr n (i + n1))) (i + n1) (by omega) (update_self ..)
          hlock₂
        refine ⟨3 + (k + (1 + m)), s', r', ?_, hret⟩
        rw [replicate_add, hruns₁, replicate_add, hruns₂, replicate_add, ← hruns']
        simp [runs, step, run, hpc₂, hr]
      · refine ⟨3 + (k + 1), s₂.at_ t (.ret (if i = n then n else -1)), _, ?_, update_self ..⟩
        rw [replicate_add, hruns₁, replicate_add, hruns₂]
        simp [runs, step, run, hpc₂, hr]
    · refine ⟨1, s.at_ t (.ret (if i = n then n else -1)), _, ?_, update_self ..⟩
      simp [runs, step, run, hpc, if_neg hlt]

/-- The offset `x` has moved on by `i`, and the content `d` has the first `j` bytes. -/
def Has (c : List Byte) (off : Nat) (data : List Byte) (x : BitVec 32) (d : List Byte) (i j : Int) : Prop :=
  x.toNat = off + i.toNat ∧ d = splice c off (data.take j.toNat)

/-- Where a thread is that has called `filewrite` at the offset `off` of a file with the content
    `c`, and what it has written; `x` and `d` are the offset and the content now. -/
def Written (c : List Byte) (off addr : Nat) (data : List Byte) (x : BitVec 32) (d : List Byte) : Pc → Prop
  | .loop a n i => a = addr ∧ n = data.length ∧ 0 ≤ i ∧ i ≤ n ∧ Has c off data x d i i
  | .beginOp a n i n1 | .ilock (.chunk a n i n1) | .io (.chunk a n i n1) =>
    a = addr ∧ n = data.length ∧ 0 ≤ i ∧ 0 < n1 ∧ i + n1 ≤ n ∧ Has c off data x d i i
  | .load (.chunk a n i n1) r =>
    a = addr ∧ n = data.length ∧ 0 ≤ i ∧ 0 < n1 ∧ i + n1 ≤ n ∧ r = n1 ∧ Has c off data x d i (i + n1)
  | .store (.chunk a n i n1) r v =>
    a = addr ∧ n = data.length ∧ 0 ≤ i ∧ 0 < n1 ∧ i + n1 ≤ n ∧ r = n1 ∧ Has c off data v d (i + n1) (i + n1)
  | .iunlock (.chunk a n i n1) r | .endOp a n i n1 r =>
    a = addr ∧ n = data.length ∧ 0 ≤ i ∧ 0 < n1 ∧ i + n1 ≤ n ∧ r = n1 ∧ Has c off data x d (i + n1) (i + n1)
  | .ret r => r = data.length ∧ Has c off data x d r r
  | .idle => True
  | _ => False

/-- Between the steps of `t` nobody moves the offset or changes the file or the bytes that are
    written. -/
def Leaves (u : Copies T M) (t : T) (addr : Nat) (data : List Byte) (s : Open T M) (a : Act T M)
    (_ : Unit) : Prop :=
  a = .run t ∨ (∀ x n, a ≠ .fileread t x n ∧ a ≠ .filewrite t x n) ∧
    ∀ s', s.step u a = some s' → s'.off = s.off ∧ s'.content = s.content ∧ Mapped (u.copyin t s'.mem) addr data

theorem Has.writei {x : BitVec 32} {d : List Byte} {i n1 : Int} (h : Has c off data x d i i)
    (hm : Mapped copyin addr data) (hi : 0 ≤ i) (hn : 0 < n1) (hend : i + n1 ≤ data.length)
    (hoff : off ≤ c.length)
    (hfit : off + data.length ≤ MAXFILE * BSIZE) :
    Files.writei copyin d (addr + i.toNat) x.toNat (n1 % 2 ^ 32).toNat =
      (splice c off (data.take (i + n1).toNat), n1) := by
  have hmax : MAXFILE * BSIZE < 2 ^ 31 := by decide
  obtain ⟨k, rfl⟩ := Int.eq_ofNat_of_zero_le hi
  obtain ⟨m, rfl⟩ := Int.eq_ofNat_of_zero_le hn.le
  obtain ⟨hx, rfl⟩ := h
  have hlen : (data.take k).length = k := length_take_of_le (by omega)
  have hjoin := @splice_splice c (data.take k) ((data.drop k).take m) off hoff
  rw [hlen, ← take_add] at hjoin
  rw [show Int.toNat ((m : Int) % 2 ^ 32) = m by omega, hx, show Int.toNat ((k : Int) + m) = k + m by omega]
  simp only [Int.toNat_natCast]
  rw [writei_mapped hm (by omega) (by rw [splice_length hoff, hlen]; omega) (by omega), hjoin]

theorem Written.run (h : Written c off addr data s.off s.content (s.pc t)) (hoff : off ≤ c.length)
    (hfit : off + data.length ≤ MAXFILE * BSIZE) (hm : Mapped (u.copyin t s.mem) addr data)
    (hs : s.run u t = some s') : Written c off addr data s'.off s'.content (s'.pc t) ∧ s'.mem = s.mem := by
  have hmax : MAXFILE * BSIZE < 2 ^ 31 := by decide
  have hchunk : 0 < maxChunk := by decide
  unfold Open.run at hs
  cases hpc : s.pc t with rw [hpc] at h hs
  | idle => cases hs
  | loop a n i =>
    dsimp only at hs
    split_ifs at hs <;> cases hs <;> simp only [at_, update_self] <;> grind [Written]
  | beginOp a n i n1 =>
    cases hs
    simp only [at_, update_self]
    exact ⟨h, trivial⟩
  | ret r =>
    cases hs
    simp only [at_, update_self]
    exact ⟨trivial, trivial⟩
  | ilock k =>
    dsimp only at hs
    split_ifs at hs
    cases hs
    simp only [at_, update_self]
    cases k with
    | read | chunk => exact ⟨h, trivial⟩
  | io k =>
    cases k with
    | read => exact h.elim
    | chunk a n i n1 =>
      obtain ⟨rfl, rfl, hi, hn, hend, hhas⟩ := h
      simp only [doIo, hhas.writei hm hi hn hend hoff hfit, if_pos (show n1 > 0 from hn)] at hs
      cases hs
      simp only [at_, update_self]
      exact ⟨⟨rfl, rfl, hi, hn, hend, rfl, hhas.1, rfl⟩, trivial⟩
  | load k r =>
    cases k with
    | read => exact h.elim
    | chunk a n i n1 =>
      cases hs
      simp only [at_, update_self]
      obtain ⟨rfl, rfl, hi, hn, hend, rfl, hx, hd⟩ := h
      refine ⟨⟨rfl, rfl, hi, hn, hend, rfl, ?_, hd⟩, trivial⟩
      obtain ⟨m, rfl⟩ := Int.eq_ofNat_of_zero_le hn.le
      rw [ofInt_natCast, toNat_add, toNat_ofNat, hx]
      omega
  | store k r v | iunlock k r =>
    cases k with
    | read => exact h.elim
    | chunk a n i n1 =>
      cases hs
      simp only [at_, update_self]
      exact ⟨h, trivial⟩
  | endOp a n i n1 r =>
    obtain ⟨rfl, rfl, hi, hn, hend, rfl, hhas⟩ := h
    simp only [ne_eq, not_true_eq_false, if_false] at hs
    cases hs
    simp only [at_, update_self]
    exact ⟨⟨rfl, rfl, by omega, hend, hhas⟩, trivial⟩

theorem Open.step_pc {a : Act T M} (hs : s.step u a = some s') (hrun : a ≠ .run t)
    (hcall : ∀ x n, a ≠ .fileread t x n ∧ a ≠ .filewrite t x n) : s'.pc t = s.pc t := by
  have hat : ∀ {s₁ : Open T M} {v pc}, v ≠ t → (s₁.at_ v pc).pc t = s₁.pc t := fun h =>
    update_of_ne (Ne.symm h) ..
  cases a with
  | fileread v x n | filewrite v x n =>
    obtain ⟨-, ⟨⟩⟩ := Option.ite_none_right_eq_some.1 hs
    refine hat ?_
    rintro rfl
    grind
  | user mem =>
    cases hs
    rfl
  | other c =>
    obtain ⟨-, ⟨⟩⟩ := Option.ite_none_right_eq_some.1 hs
    rfl
  | run v =>
    have hv : v ≠ t := by
      rintro rfl
      exact hrun rfl
    cases hp : s.pc v with simp only [step, run, hp] at hs
    | idle => cases hs
    | beginOp | load | store | iunlock | ret =>
      cases hs
      exact hat hv
    | loop | endOp => split_ifs at hs <;> cases hs <;> exact hat hv
    | ilock =>
      obtain ⟨-, ⟨⟩⟩ := Option.ite_none_right_eq_some.1 hs
      exact hat hv
    | io k =>
      cases hs
      exact (hat hv).trans (congrFun doIo_kept.2.2 t)

/-- **The transactions of `filewrite` do what one `writei` does.** A thread writes a mapped buffer
    at an offset that is not beyond the end of the file, to where there is room, and nobody else
    moves the offset or changes the file: whatever other steps come between, the call returns the
    length, the offset has moved on by it, and the content is that of one `writei`. Left to itself
    the call returns. -/
theorem filewrite_eq_writei (hm : Mapped (u.copyin t s.mem) addr data) (hpc : s.pc t = .idle)
    (hw : s.writable = true) (hoff : s.off.toNat ≤ s.content.length)
    (hfit : s.off.toNat + data.length ≤ MAXFILE * BSIZE) :
    ∃ s₁, s.step u (.filewrite t addr data.length) = some s₁ ∧
      (∀ tr s' r, Along (Open.step u) (fun _ _ _ => ()) (Leaves u t addr data) s₁ () tr →
        runs (Open.step u) s₁ tr = some s' → s'.pc t = .ret r →
        r = data.length ∧ s'.off.toNat = s.off.toNat + data.length ∧
          writei (u.copyin t s.mem) s.content addr s.off.toNat data.length =
            (s'.content, (data.length : Int))) ∧
      (s.lock = none → ∃ k s' r, runs (Open.step u) s₁ (List.replicate k (.run t)) = some s' ∧
        s'.pc t = .ret r) := by
  refine ⟨s.at_ t (.loop addr data.length 0), by simp only [step, if_pos hpc, if_pos hw],
    fun tr s' r hal hrun hret => ?_,
    fun hlock => run_returns _ le_rfl (update_self ..) hlock⟩
  have hstart : Written s.content s.off.toNat addr data s.off s.content (.loop addr data.length 0) :=
    ⟨rfl, rfl, le_rfl, by omega, rfl, by rw [Int.toNat_zero, take_zero, splice_nil]⟩
  have hinv := hal.invariant (fun s' _ => Written s.content s.off.toNat addr data s'.off s'.content (s'.pc t) ∧
    Mapped (u.copyin t s'.mem) addr data) hrun ⟨by simpa only [at_, update_self] using hstart, hm⟩ ?_
  · rw [hret] at hinv
    obtain ⟨⟨rfl, hend, hcontent⟩, -⟩ := hinv
    rw [Int.toNat_natCast] at hend hcontent
    have hone := writei_mapped (k := 0) (m := data.length) hm (by omega) hoff hfit
    rw [drop_zero] at hone
    exact ⟨rfl, hend, by rw [hcontent]; exact hone⟩
  · rintro s₁ a s₂ _ hs hleaves ⟨hwr, hmap⟩
    by_cases ha : a = .run t
    · subst ha
      obtain ⟨hnext, hmem⟩ := hwr.run hoff hfit hmap hs
      exact ⟨hnext, by rw [hmem]; exact hmap⟩
    · obtain ⟨hcall, hkeep⟩ := hleaves.resolve_left ha
      obtain ⟨ho, hc, hmap'⟩ := hkeep s₂ hs
      rw [step_pc hs ha hcall, ho, hc]
      exact ⟨hwr, hmap'⟩

theorem along_replicate (k : Nat) :
    Along (Open.step u) (fun _ _ _ => ()) (Leaves u t addr data) s () (List.replicate k (.run t)) := by
  induction k generalizing s with
  | zero => trivial
  | succ k ih =>
    rw [List.replicate_succ, Along]
    split
    · exact ⟨.inl rfl, ih⟩
    · trivial

/-- Two transactions, the second of which begins at the end of the first. -/
theorem filewrite_eq_writei_chunks : ∃ s' k s'', tenBytes.step zeroCopies (.filewrite true 0 4000) = some s' ∧
    runs (Open.step zeroCopies) s' (List.replicate k (.run true)) = some s'' ∧ s''.pc true = .ret 4000 ∧
      s''.off.toNat = 4000 ∧ writei (zeroCopies.copyin true ()) tenBytes.content 0 0 4000 =
        (s''.content, 4000) := by
  have hm : Mapped (zeroCopies.copyin true ()) 0 (List.replicate 4000 0) := by
    intro k m hk
    rw [drop_replicate, take_replicate, Nat.min_eq_left (by rw [length_replicate] at hk; omega)]
    rfl
  obtain ⟨s', hstep, hresult, hreturns⟩ :=
    filewrite_eq_writei (s := tenBytes) (t := true) hm rfl rfl (by decide)
    (by rw [length_replicate]; decide)
  obtain ⟨k, s'', r, hruns, hret⟩ := hreturns rfl
  obtain ⟨rfl, hoff, hcontent⟩ := hresult _ s'' r (along_replicate k) hruns hret
  rw [length_replicate] at hstep hret hoff hcontent
  exact ⟨s', k, s'', hstep, hruns, hret, hoff, hcontent⟩

/-- The file has been cut to nothing through another descriptor, and the offset is beyond its end;
    or somebody reads from the file before the first transaction. -/
theorem filewrite_beyond_end :
    (∃ s', runs (Open.step zeroCopies) { tenBytes with content := [], off := 10 }
        (.filewrite true 0 4 :: List.replicate 6 (.run true)) = some s' ∧
      s'.pc true = .ret (-1) ∧ s'.off = 10 ∧ s'.content = []) ∧
    ∃ s', runs (Open.step zeroCopies) tenBytes (.filewrite true 0 4 :: .fileread false 0 3 ::
        (List.replicate 5 (.run false) ++ List.replicate 9 (.run true))) = some s' ∧
      s'.pc true = .ret 4 ∧ s'.off = 7 ∧ s'.content = [7, 7, 7, 0, 0, 0, 0, 7, 7, 7] :=
  ⟨⟨_, rfl, rfl, rfl, rfl⟩, _, rfl, rfl, rfl, rfl⟩

end Xv6.Files
