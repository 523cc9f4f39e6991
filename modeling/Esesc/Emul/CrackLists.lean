import Esesc.Emul.CrackMem
import Esesc.Lib.BitList

/-!
# Cracked lists of registers

`PUSH`, `POP`, `STM` and `LDM` walk through the bits of a list and leave one access for each that is set.

* `bytesOf_eq`: the bits are counted right.
* `wp_pushLoop`, `wp_popLoop`, `wp_storeLoop`, `wp_loadLoop`: the loops, by induction on the bits.
* `simulates_PUSH`, `simulates_POP`, `simulates_STM`, `simulates_LDM`: the instructions.
-/

namespace Esesc.Emul

open Esesc.Lib Isa

variable {M : Type*} {prog : Prog M} {a : State M} {c : Sccore M} {us : List Uop} {Q : Sccore M → Prop}
  {cond : Option CondCode} {A B : RegType} {imm addr : BitVec 32} {w : ℕ}

/-! ## Counting -/

/-- **The count.** -/
theorem countBits_eq {k : ℕ} {x : BitVec w} (hk : x.toNat.bitIndices.length ≤ k) :
    countBits k x = x.toNat.bitIndices.length := by
  induction k generalizing x with
  | zero => exact (Nat.le_zero.1 hk).symm
  | succ k ih =>
    rw [countBits]
    split
    · rename_i h0
      rw [h0]
      simp
    · rename_i h0
      have hne : x.toNat ≠ 0 := fun hn => h0 (BitVec.eq_of_toNat_eq (by simpa using hn))
      have hw : 0 < w := by
        rcases Nat.eq_zero_or_pos w with rfl | hw
        · exact absurd (BitVec.eq_of_getLsbD_eq fun i hi => absurd hi (Nat.not_lt_zero i)) h0
        · exact hw
      have hpred : (x &&& (x - 1)).toNat = x.toNat &&& (x.toNat - 1) := by
        have hone : (1 : BitVec w).toNat = 1 := by
          rw [BitVec.ofNat_eq_ofNat, BitVec.toNat_ofNat, Nat.one_mod_two_pow_eq_one.2 hw]
        rw [BitVec.toNat_and, BitVec.toNat_sub_of_le (by rw [BitVec.le_def, hone]; omega), hone]
      have hstep := bitIndices_and_pred hne
      rw [← hpred] at hstep
      rw [ih (by omega), hstep]

theorem bytesOf_eq (x : BitVec w) : bytesOf x = listBytes x := by
  unfold bytesOf listBytes regsOf
  rw [countBits_eq (length_bitIndices_le x.isLt), Nat.mul_comm]

theorem countBits_pos {x : BitVec w} (hx : x ≠ 0) : ¬countBits w x < 1 := by
  rw [countBits_eq (length_bitIndices_le x.isLt), Nat.lt_one_iff, length_bitIndices_eq_zero]
  exact fun h => hx (BitVec.eq_of_toNat_eq (by simpa using h))

/-! ## The bits of a list -/

theorem bit0_eq (x : BitVec w) : x.getLsbD 0 = decide (x.toNat % 2 = 1) := Nat.testBit_zero _

theorem toNat_shift (x : BitVec w) : (x >>> 1).toNat = x.toNat / 2 := by
  rw [BitVec.toNat_ushiftRight, Nat.shiftRight_eq_div_pow, pow_one]

theorem bitsFrom_true {k i : ℕ} {x : BitVec w} (h : x.getLsbD 0 = true) :
    bitsFrom (k + 1) i x.toNat = i :: bitsFrom k (i + 1) (x >>> 1).toNat := by
  rw [bit0_eq, decide_eq_true_eq] at h
  rw [bitsFrom, if_pos h, toNat_shift]
  rfl

theorem bitsFrom_false {k i : ℕ} {x : BitVec w} (h : x.getLsbD 0 = false) :
    bitsFrom (k + 1) i x.toNat = bitsFrom k (i + 1) (x >>> 1).toNat := by
  rw [bit0_eq, decide_eq_false_iff_not] at h
  rw [bitsFrom, if_neg h, toNat_shift]
  rfl

/-- A list as the instruction set reads it. -/
theorem regsOf_eq {k : ℕ} (x : BitVec w) (hx : x.toNat < 2 ^ k) : regsOf x = bitsFrom k 0 x.toNat := by
  rw [bitsFrom_eq, Nat.mod_eq_of_lt hx]
  exact (List.map_id _).symm

/-! ## One register of a list -/

theorem free_reg_list_eq {i : ℕ} (hi : i < 15) : free_reg_list i = vis ⟨i, by omega⟩ := rfl

theorem getNat_eq {i : ℕ} (hi : i < 15) : getNat a i = a.get ⟨i, by omega⟩ := by
  unfold getNat
  congr 1
  exact Fin.ext (Nat.mod_eq_of_lt (by omega))

/-- A store from a register of the list. -/
theorem wp_storeWord {i : ℕ} (hi : i < 15) (h : Shows a c) (hf : c.state.flush = false)
    (haddr : (c.state.rf A).setWidth 32 = addr)
    (hnext : Shows { a with mem := putWord prog a.mem addr (getNat a i) } { c with mem := putWord prog a.mem addr (getNat a i) } →
      (uops prog).WP us { c with mem := putWord prog a.mem addr (getNat a i) } Q) :
    (uops prog).WP (access .U32_ST_L false A (free_reg_list i) :: us) c Q := by
  have hreg : (c.state.rf (free_reg_list i)).setWidth 32 = getNat a i := by
    rw [free_reg_list_eq hi, getNat_eq hi, h.get hi]
  have hword : wordAddr (access .U32_ST_L false A (free_reg_list i)).inst c = addr &&& 0xFFFFFFFE := by
    rw [wordAddr_low]
    exact congrArg (· &&& 0xFFFFFFFE) haddr
  have hexec : (uops prog).exec (access .U32_ST_L false A (free_reg_list i)) c =
      some { c with mem := putWord prog a.mem addr (getNat a i) } := by
    refine (congrArg some (if_pos (wordAddr_ne _))).trans ?_
    rw [hword, h.mem]
    exact congrArg (fun x => some { c with mem := prog.st32 a.mem (addr &&& 0xFFFFFFFE) x }) hreg
  exact Microcode.WP.cons hexec hf (hnext h.withMem)

/-- A load into one. -/
theorem wp_loadWord {i : ℕ} (hi : i < 15) (h : Shows a c) (hf : c.state.flush = false)
    (haddr : (c.state.rf A).setWidth 32 = addr)
    (hnext : ∀ t, Stays c t → Shows (a.put ⟨i, hi⟩ (wordAt prog a.mem addr)) t →
      (∀ r, r ≠ lreg ⟨i, hi⟩ → t.state.rf r = c.state.rf r) → (uops prog).WP us t Q) :
    (uops prog).WP (access .U32_LD_L true A (free_reg_list i) :: us) c Q := by
  have hword : wordAddr (access .U32_LD_L true A (free_reg_list i)).inst c = addr &&& 0xFFFFFFFE := by
    rw [wordAddr_low]
    exact congrArg (· &&& 0xFFFFFFFE) haddr
  have hexec : (uops prog).exec (access .U32_LD_L true A (free_reg_list i)) c =
      some (c.setDst (access .U32_LD_L true A (free_reg_list i)).inst ((wordAt prog a.mem addr).setWidth 64) 0) := by
    unfold wordAt
    rw [← hword, ← h.mem]
    rfl
  have hrep : Shows (a.put ⟨i, hi⟩ (((wordAt prog a.mem addr).setWidth 64).setWidth 32))
      (c.setDst (access .U32_LD_L true A (free_reg_list i)).inst ((wordAt prog a.mem addr).setWidth 64) 0) :=
    h.write (i := ⟨i, hi⟩) rfl rfl
  rw [BitVec.setWidth_setWidth_of_le _ (by decide), BitVec.setWidth_eq] at hrep
  have hdst : (access .U32_LD_L true A (free_reg_list i)).inst.dst = lreg ⟨i, hi⟩ := rfl
  refine Microcode.WP.cons hexec (Scstate.flush_setDst.trans hf)
    (hnext _ ⟨Scstate.flush_setDst.trans hf, Scstate.pc_setDst⟩ hrep fun r hr => ?_)
  exact Scstate.rf_setDst_of_ne (hdst ▸ hr)

/-- A load into a temporary register. -/
theorem wp_loadTemp {tmp : RegType} (htmp : Temp tmp) (h : Shows a c) (hf : c.state.flush = false)
    (haddr : (c.state.rf A).setWidth 32 = addr)
    (hnext : ∀ t, Stays c t → Shows a t → (t.state.rf tmp).setWidth 32 = wordAt prog a.mem addr → (uops prog).WP us t Q) :
    (uops prog).WP (access .U32_LD_L true A tmp :: us) c Q := by
  have hword : wordAddr (access .U32_LD_L true A tmp).inst c = addr &&& 0xFFFFFFFE := by
    rw [wordAddr_low]
    exact congrArg (· &&& 0xFFFFFFFE) haddr
  refine wp_temp (u := access .U32_LD_L true A tmp) (x := (prog.ldu32 c.mem (wordAddr (access .U32_LD_L true A tmp).inst c)).setWidth 64)
    (y := 0) (r := tmp) rfl rfl htmp rfl hf h fun t hs hr _ hv _ => hnext t hs hr ?_
  rw [hv, BitVec.setWidth_setWidth_of_le _ (by decide), BitVec.setWidth_eq, hword, h.mem]
  rfl

/-- The address moves on by a word. -/
theorem wp_moveOn (h : Shows a c) (hf : c.state.flush = false) (haddr : (c.state.rf A).setWidth 32 = addr)
    (hnext : ∀ t, Stays c t → Shows a t → SameBut LREG_TMP1 c t → (t.state.rf LREG_TMP1).setWidth 32 = addr + 4 →
      (uops prog).WP us t Q) : (uops prog).WP (setup .U64_ADD A 0 4 LREG_TMP1 false :: us) c Q := by
  refine wp_temp (u := setup .U64_ADD A 0 4 LREG_TMP1 false) (x := c.state.rf A + 4) (r := LREG_TMP1) rfl rfl
    temp1_temp rfl hf h fun t hs hr hsame hv _ => hnext t hs hr hsame ?_
  rw [hv, BitVec.setWidth_add _ _ (by decide), haddr]
  rfl

/-! ## `PUSH` -/

/-- **The loop of `PUSH`.** The invariant: `LREG_TMP1` has the address of the next register. -/
theorem wp_pushLoop {k i : ℕ} (hik : i + k ≤ 15) (list : BitVec w) (firstuse : Bool) (h : Shows a c)
    (hf : c.state.flush = false) (haddr : (c.state.rf LREG_TMP1).setWidth 32 = addr) :
    (uops prog).WP (pushLoop k i list firstuse) c fun t => Stays c t ∧
      Shows { a with mem := storeRegs prog (getNat a) (bitsFrom k i list.toNat) addr a.mem } t := by
  induction k generalizing i list firstuse a c addr with
  | zero => exact Microcode.WP.nil ⟨⟨hf, rfl⟩, h⟩
  | succ k ih =>
    rw [pushLoop]
    cases hbit : list.getLsbD 0 with
    | false =>
      rw [bitsFrom_false hbit, if_neg Bool.false_ne_true, List.nil_append]
      exact ih (by omega) _ _ h hf haddr
    | true =>
      rw [bitsFrom_true hbit, if_pos rfl, List.append_assoc]
      have hstore : ∀ t, Stays c t → Shows a t → (t.state.rf LREG_TMP1).setWidth 32 = addr →
          (uops prog).WP ([access .U32_ST_L false LREG_TMP1 (free_reg_list i), setup .U64_ADD LREG_TMP1 0 4 LREG_TMP1 false] ++
            pushLoop k (i + 1) (list >>> 1) (firstuse || true)) t fun u => Stays c u ∧
              Shows { a with mem := storeRegs prog (getNat a) (i :: bitsFrom k (i + 1) (list >>> 1).toNat) addr a.mem } u := by
        intro t hs hr ht
        refine wp_storeWord (by omega) hr hs.1 ht fun hr' => ?_
        refine wp_moveOn hr' hs.1 ht fun u hsu hru _ hu => ?_
        refine (ih (by omega) (list >>> 1) (firstuse || true) hru hsu.1 hu).mono ?_
        rintro v ⟨hsv, hrv⟩
        exact ⟨hs.trans (hsu.trans hsv), hrv⟩
      cases firstuse with
      | true => exact hstore c ⟨hf, rfl⟩ h haddr
      | false =>
        -- a micro-op that changes nothing
        refine wp_address computes_U32_ADD h hf rfl fun t hs hr _ ht => hstore t hs hr ?_
        rw [ht, haddr, opnd_zero h]
        exact BitVec.add_zero _

/-- The base moves by the words of the list. -/
theorem wp_writeBack {sop : Scopcode} {val : BitVec 32 → BitVec 32 → BitVec 32} {icc : Scuop → Scstate → CCType}
    (hop : Computes prog sop val icc) (h : Shows a c) (hf : c.state.flush = false) (n : Fin 15)
    (hnext : ∀ t, Stays c t → Shows (a.put n (val (a.r n) imm)) t → (∀ r, r ≠ lreg n → t.state.rf r = c.state.rf r) →
      (uops prog).WP us t Q) :
    (uops prog).WP (setup sop (lreg n) 0 imm (lreg n) false :: us) c Q := by
  obtain ⟨x, hx, hval⟩ := hop.exec c (lreg n) 0 imm (lreg n) false
  rw [h.low, opnd_zero h] at hval
  have hdst : (setup sop (lreg n) 0 imm (lreg n) false).inst.dst = lreg n := rfl
  refine wp_setDst hx hf (hnext _ ⟨Scstate.flush_setDst.trans hf, Scstate.pc_setDst⟩ (hval ▸ h.write rfl rfl) fun r hr => ?_)
  exact Scstate.rf_setDst_of_ne (hdst ▸ hr)

/-- **`PUSH`.** -/
theorem simulates_PUSH {list : BitVec 16} (hlist : list.toNat < 2 ^ 15) (h0 : list ≠ 0) (h : Starts a c) :
    Emulates prog (PUSH cond list c.PC) .exact c
      (if skips a cond = true then a.next else exec prog a (.push list)) := by
  unfold PUSH
  rw [if_neg (countBits_pos h0), List.append_assoc, List.cons_append, bytesOf_eq]
  refine simulates_skipUnless h cond fun _ t ht => ?_
  have hsp : (t.state.rf STACKPTR).setWidth 32 = a.get 13 := ht.rep.get (m := 13) (by decide)
  obtain ⟨x, hx, hval⟩ := (computes_U32_SUB : Computes prog _ _ _).exec t STACKPTR 0 (listBytes list) LREG_TMP1 false
  refine wp_temp (r := LREG_TMP1) hx rfl temp1_temp rfl ht.flush ht.rep fun u hs hr _ hv _ => Emulates.stay hs ?_
  rw [hsp, opnd_imm ht] at hval
  refine Emulates.of_body (ht.stay hs hr) (wp_seq hs.1 (wp_pushLoop (by decide) list false hr hs.1 (by rw [hv, hval]))
    fun v hsv hrv => wp_writeBack computes_U32_SUB hrv hsv.1 13 fun w hsw hrw _ =>
      Microcode.WP.nil ⟨hsv.trans hsw, ?_⟩) rfl
  have hexec : exec prog a (.push list) = { a.put 13 (a.r 13 - listBytes list) with
      mem := storeRegs prog (getNat a) (bitsFrom 15 0 list.toNat) (a.get 13 - listBytes list) a.mem }.next := by
    show ({ a.next.set 13 (a.get 13 - listBytes list) with
      mem := storeRegs prog (getNat a) (regsOf list) (a.get 13 - listBytes list) a.mem } : State M) = _
    rw [next_set (by decide), regsOf_eq list hlist]
    rfl
  rw [hexec]
  exact hrw.next

/-! ## `POP` -/

theorem set_ofNat {i : ℕ} (hi : i < 15) (x : BitVec 32) : a.set (Fin.ofNat 16 i) x = a.put ⟨i, hi⟩ x := by
  have hval : (Fin.ofNat 16 i).val = i := Nat.mod_eq_of_lt (by omega)
  have hlt : (Fin.ofNat 16 i).val < 15 := by omega
  rw [set_put hlt]
  congr 1
  exact Fin.ext hval

theorem loadRegs_mem {is : List ℕ} : ∀ (addr : BitVec 32) (s : State M), (∀ i ∈ is, i < 15) →
    (loadRegs prog is addr s).mem = s.mem ∧ (loadRegs prog is addr s).pc = s.pc ∧
      (loadRegs prog is addr s).thumb = s.thumb := by
  induction is with
  | nil => exact fun _ _ _ => ⟨rfl, rfl, rfl⟩
  | cons i is ih =>
    intro addr s hall
    have hi : i < 15 := hall i (List.mem_cons_self ..)
    obtain ⟨hm, hpc, ht⟩ := ih (addr + 4) (s.set (Fin.ofNat 16 i) (wordAt prog s.mem addr))
      fun j hj => hall j (List.mem_cons_of_mem _ hj)
    rw [set_ofNat hi] at hm hpc ht
    rw [loadRegs, set_ofNat hi]
    exact ⟨hm, hpc, ht⟩

/-- The instruction moves on before or after its registers are loaded. -/
theorem loadRegs_next {is : List ℕ} : ∀ (addr : BitVec 32) (s : State M), (∀ i ∈ is, i < 15) →
    loadRegs prog is addr s.next = (loadRegs prog is addr s).next := by
  induction is with
  | nil => exact fun _ _ _ => rfl
  | cons i is ih =>
    intro addr s hall
    have hi : i < 15 := hall i (List.mem_cons_self ..)
    rw [loadRegs, loadRegs, set_ofNat hi, set_ofNat hi]
    exact ih (addr + 4) (s.put ⟨i, hi⟩ (wordAt prog s.mem addr)) fun j hj => hall j (List.mem_cons_of_mem _ hj)

/-- A register that is not in the list keeps its value. -/
theorem loadRegs_of_not_mem {is : List ℕ} {n : Fin 15} : ∀ (addr : BitVec 32) (s : State M), (∀ i ∈ is, i < 15) →
    n.val ∉ is → (loadRegs prog is addr s).r n = s.r n := by
  induction is with
  | nil => exact fun _ _ _ _ => rfl
  | cons i is ih =>
    intro addr s hall hn
    have hi : i < 15 := hall i (List.mem_cons_self ..)
    rw [loadRegs, set_ofNat hi, ih _ _ (fun j hj => hall j (List.mem_cons_of_mem _ hj)) fun h => hn (List.mem_cons_of_mem _ h)]
    refine Function.update_of_ne ?_ _ _
    rintro rfl
    exact hn (List.mem_cons_self ..)

/-- **The loop of `POP`.** The invariant: the stack pointer has the address until the first load, and
`LREG_TMP1` after it. -/
theorem wp_popLoop {k i : ℕ} (hik : i + k ≤ 15) (list : BitVec w) (first_use : Bool) (h : Shows a c)
    (hf : c.state.flush = false) (hsp : first_use = true → 13 ∉ bitsFrom k i list.toNat)
    (haddr : (c.state.rf (if first_use then STACKPTR else LREG_TMP1)).setWidth 32 = addr) :
    (uops prog).WP (popLoop k i list first_use) c fun t => Stays c t ∧
      Shows (loadRegs prog (bitsFrom k i list.toNat) addr a) t ∧
      (t.state.rf (if first_use && (bitsFrom k i list.toNat).isEmpty then STACKPTR else LREG_TMP1)).setWidth 32 =
        addr + BitVec.ofNat 32 (4 * (bitsFrom k i list.toNat).length) := by
  induction k generalizing i list first_use a c addr with
  | zero =>
    refine Microcode.WP.nil ⟨⟨hf, rfl⟩, h, ?_⟩
    rw [bitsFrom, List.isEmpty_nil, Bool.and_true, haddr]
    exact (BitVec.add_zero _).symm
  | succ k ih =>
    rw [popLoop]
    cases hbit : list.getLsbD 0 with
    | false =>
      rw [bitsFrom_false hbit] at hsp ⊢
      rw [if_neg Bool.false_ne_true, List.nil_append, Bool.not_false, Bool.and_true]
      exact ih (by omega) _ _ h hf hsp haddr
    | true =>
      rw [bitsFrom_true hbit] at hsp ⊢
      rw [if_pos rfl, Bool.not_true, Bool.and_false]
      refine wp_loadWord (by omega) h hf haddr fun t hs hr hothers => ?_
      have hne : (if first_use then STACKPTR else LREG_TMP1) ≠ lreg ⟨i, by omega⟩ := by
        cases first_use with
        | true =>
          rw [if_pos rfl, show STACKPTR = lreg 13 from rfl, Ne, lreg_inj]
          rintro hi
          exact hsp rfl (by rw [show i = 13 from (Fin.ext_iff.1 hi).symm]; exact List.mem_cons_self ..)
        | false => exact lreg_ne (.inr (by decide))
      rw [← hothers _ hne] at haddr
      refine wp_moveOn hr hs.1 haddr fun u hsu hru _ hu => ?_
      refine (ih (by omega) (list >>> 1) false hru hsu.1 (fun hfirst => absurd hfirst Bool.false_ne_true) hu).mono ?_
      rintro v ⟨hsv, hrv, hv⟩
      refine ⟨hs.trans (hsu.trans hsv), ?_, ?_⟩
      · rw [loadRegs, set_ofNat (by omega)]
        exact hrv
      · rw [List.isEmpty_cons, Bool.and_false]
        rw [Bool.false_and] at hv
        refine hv.trans ?_
        rw [List.length_cons, BitVec.add_assoc]
        congr 1
        refine BitVec.eq_of_toNat_eq ?_
        rw [BitVec.toNat_add, BitVec.toNat_ofNat, BitVec.toNat_ofNat, show (4 : BitVec 32).toNat = 4 from rfl]
        omega

theorem regsOf_low (list : BitVec 16) : regsOf (list.setWidth 15) = bitsFrom 15 0 list.toNat := by
  rw [regsOf_eq _ (list.setWidth 15).isLt, bitsFrom_eq, bitsFrom_eq, BitVec.toNat_setWidth, Nat.mod_mod]

theorem low_isEmpty (list : BitVec 16) :
    (bitsFrom 15 0 list.toNat).isEmpty = decide (list.setWidth 15 = 0) := by
  rw [← regsOf_low, Bool.eq_iff_iff, List.isEmpty_iff_length_eq_zero, decide_eq_true_eq]
  unfold regsOf
  rw [length_bitIndices_eq_zero, ← BitVec.toNat_inj]
  rfl

/-- **`POP`,** of a list without the stack pointer. -/
theorem simulates_POP {list : BitVec 16} (hsp : list.getLsbD 13 = false) (h0 : list ≠ 0) (h : Starts a c)
    (hthumb : a.thumb = true) :
    Emulates prog (POP cond list c.PC) .exact c
      (if skips a cond = true then a.next else exec prog a (.pop list)) := by
  unfold POP
  rw [if_neg (countBits_pos h0), List.append_assoc, bytesOf_eq]
  refine simulates_skipUnless h cond fun _ t ht => ?_
  have hregs : ∀ i ∈ bitsFrom 15 0 list.toNat, i < 15 := fun i hi => by have := mem_bitsFrom hi; omega
  have h13 : 13 ∉ bitsFrom 15 0 list.toNat := fun hmem => by
    have := (mem_bitsFrom hmem).2.2
    exact absurd (hsp.symm.trans this) Bool.false_ne_true
  -- the registers
  set s := loadRegs prog (bitsFrom 15 0 list.toNat) (a.get 13) a with hs
  have hfixed : s.mem = a.mem ∧ s.pc = a.pc ∧ s.thumb = a.thumb := loadRegs_mem (a.get 13) a hregs
  have hkeep : s.r 13 = a.get 13 := loadRegs_of_not_mem (a.get 13) a hregs h13
  have hset : (loadRegs prog (regsOf (list.setWidth 15)) (a.get 13) a.next).set 13 (a.get 13 + listBytes list) =
      (s.put 13 (s.r 13 + listBytes list)).next := by
    rw [regsOf_low, loadRegs_next _ _ hregs, next_set (by decide), hkeep]
    rfl
  have haddr : (t.state.rf (if true then STACKPTR else LREG_TMP1)).setWidth 32 = a.get 13 := ht.rep.get (m := 13) (by decide)
  have hloop : (uops prog).WP _ _ _ := wp_popLoop (by decide) list true ht.rep ht.flush (fun _ => h13) haddr
  rw [Bool.true_and, low_isEmpty, ← regsOf_low] at hloop
  refine Microcode.WP.append_of_stay ht.flush (hloop.mono ?_)
  rintro u ⟨hsu, hru, hu⟩
  refine ⟨hsu.1, Emulates.stay hsu ?_⟩
  rw [regsOf_low, ← hs] at hru
  have hpc : s.pc = evenPC u.state.pc := by
    rw [hsu.2, hfixed.2.1]
    exact ht.pc
  have hexec : exec prog a (.pop list) = if list.getLsbD 15 then
      (s.put 13 (s.r 13 + listBytes list)).next.exchange (wordAt prog a.mem (a.get 13 + listBytes (list.setWidth 15)))
      else (s.put 13 (s.r 13 + listBytes list)).next := by
    rw [← hset]
    rfl
  rw [hexec]
  cases list.getLsbD 15 with
  | false =>
    rw [if_neg Bool.false_ne_true, if_neg Bool.false_ne_true]
    have hu' : Starts s u := ⟨hru, hsu.1, hpc⟩
    exact Emulates.of_body hu' (wp_writeBack computes_U32_ADD hru hsu.1 13 fun v hsv hrv _ =>
      Microcode.WP.nil ⟨hsv, hrv.next⟩) rfl
  | true =>
    rw [if_pos rfl, if_pos rfl]
    -- the word that becomes the PC
    set target := wordAt prog a.mem (a.get 13 + listBytes (list.setWidth 15)) with htarget
    have hsel : (u.state.rf (if list.setWidth 15 = 0 then STACKPTR else LREG_TMP1)).setWidth 32 =
        a.get 13 + listBytes (list.setWidth 15) := by
      simp only [decide_eq_true_eq] at hu
      exact hu
    refine wp_loadTemp temp1_temp hru hsu.1 hsel fun v hsv hrv hv => Emulates.stay hsv ?_
    rw [hfixed.1, ← htarget] at hv
    refine wp_writeBack computes_U32_ADD hrv hsv.1 13 fun w hsw hrw hothers => Emulates.stay hsw ?_
    have hTMP : LREG_TMP1 ≠ lreg 13 := lreg_ne (.inr (by decide))
    rw [← hothers _ hTMP] at hv
    refine wp_exchange temp2_temp hrw hsw.1 (hfixed.2.2.trans hthumb) fun x hsx hrx hothersx => Emulates.stay hsx ?_
    have hjump : (uops prog).WP _ _ _ := wp_jump LREG_TMP1 temp1_temp hrx hsx.1
    rw [hothersx _ (by decide) (by decide), hv] at hjump
    rw [bit0_low hv] at hjump
    have hpcx : s.pc = evenPC x.state.pc := by
      rw [(hsv.trans (hsw.trans hsx)).2]
      exact hpc
    exact Emulates.of_branches hjump hpcx (.of_eq (if_pos rfl))

/-! ## `STM` -/

theorem sub_add_four (x : BitVec 32) : x - 4 + 4 = x := BitVec.sub_add_cancel x 4

theorem add_sub_four (x : BitVec 32) : x + 4 - 4 = x := BitVec.add_sub_cancel x 4

/-- The address of the next word moves on when the next register is in the list. -/
theorem wp_moveIf {next : Bool} {x : BitVec 32} (h : Shows a c) (hf : c.state.flush = false)
    (hx : (c.state.rf A).setWidth 32 = x)
    (hnext : ∀ t, Stays c t → Shows a t → SameBut LREG_TMP1 c t →
      (t.state.rf (if next then LREG_TMP1 else A)).setWidth 32 = (if next then x + 4 else x) → (uops prog).WP us t Q) :
    (uops prog).WP ((if next then [setup .U64_ADD A 0 4 LREG_TMP1 false] else []) ++ us) c Q := by
  cases next with
  | true => exact wp_moveOn h hf hx fun t hs hr hsame ht => hnext t hs hr hsame ht
  | false => exact hnext c ⟨hf, rfl⟩ h (fun _ _ => ⟨rfl, rfl⟩) hx

/-- **The loop of `STM`.** The invariant: from the first store on, `LREG_TMP1` has the address of the register that
is looked at, or of the last one that was stored. -/
theorem wp_storeLoop {n : Fin 15} {k i : ℕ} (hik : i + k ≤ 15) (list : BitVec w) (firstuse : Bool) (addr : BitVec 32) (h : Shows a c)
    (hf : c.state.flush = false)
    (hinv : if firstuse then (c.state.rf LREG_TMP1).setWidth 32 = (if list.getLsbD 0 then addr else addr - 4)
      else addr = a.r n) :
    (uops prog).WP (storeLoop (lreg n) k i list firstuse) c fun t => Stays c t ∧
      Shows { a with mem := storeRegs prog (getNat a) (bitsFrom k i list.toNat) addr a.mem } t := by
  induction k generalizing i list firstuse a c addr with
  | zero => exact Microcode.WP.nil ⟨⟨hf, rfl⟩, h⟩
  | succ k ih =>
    rw [storeLoop, List.append_assoc]
    cases hbit : list.getLsbD 0 with
    | false =>
      rw [bitsFrom_false hbit, if_neg Bool.false_ne_true, List.nil_append, Bool.or_false]
      rw [hbit] at hinv
      refine wp_moveIf h hf rfl fun t hs hr _ ht => ?_
      refine (ih (by omega) (list >>> 1) firstuse addr hr hs.1 ?_).mono fun u hu => ⟨hs.trans hu.1, hu.2⟩
      cases firstuse with
      | false => exact hinv
      | true =>
        rw [if_pos rfl] at hinv ⊢
        rw [if_neg Bool.false_ne_true] at hinv
        rw [ite_self, hinv, sub_add_four] at ht
        exact ht
    | true =>
      rw [bitsFrom_true hbit, if_pos rfl, List.append_assoc]
      rw [hbit] at hinv
      have hstore : ∀ t, Stays c t → Shows a t → (t.state.rf LREG_TMP1).setWidth 32 = addr →
          (uops prog).WP ([access .U32_ST_L false LREG_TMP1 (free_reg_list i)] ++
            ((if (list >>> 1).getLsbD 0 then [setup .U64_ADD LREG_TMP1 0 4 LREG_TMP1 false] else []) ++
              storeLoop (lreg n) k (i + 1) (list >>> 1) (firstuse || true))) t fun u => Stays c u ∧
              Shows { a with mem := storeRegs prog (getNat a) (i :: bitsFrom k (i + 1) (list >>> 1).toNat) addr a.mem } u := by
        intro t hs hr ht
        refine wp_storeWord (by omega) hr hs.1 ht fun hr' => ?_
        refine wp_moveIf hr' hs.1 ht fun u hsu hru _ hu => ?_
        refine (ih (by omega) (list >>> 1) (firstuse || true) (addr + 4) hru hsu.1 ?_).mono fun v hv =>
          ⟨hs.trans (hsu.trans hv.1), hv.2⟩
        rw [Bool.or_true, if_pos rfl]
        rw [ite_self] at hu
        rw [hu, add_sub_four]
      cases firstuse with
      | true => exact hstore c ⟨hf, rfl⟩ h hinv
      | false =>
        refine wp_address computes_U32_ADD h hf rfl fun t hs hr _ ht => hstore t hs hr ?_
        rw [ht, h.low, opnd_zero h, hinv]
        exact BitVec.add_zero _

/-- **`STM`.** -/
theorem simulates_STM {n : Fin 15} {list : BitVec 8} (h0 : list ≠ 0) (h : Starts a c) :
    Emulates prog (storeMultiple cond (lreg n) list c.PC) .exact c
      (if skips a cond = true then a.next else exec prog a (.stm ⟨n.val, by omega⟩ list)) := by
  have hpos : ¬list < 1 := by
    intro hlt
    refine h0 (BitVec.eq_of_toNat_eq ?_)
    rw [BitVec.lt_def] at hlt
    exact Nat.lt_one_iff.1 hlt
  unfold storeMultiple
  rw [if_neg hpos, List.append_assoc, bytesOf_eq]
  refine simulates_skipUnless h cond fun _ t ht => ?_
  refine Emulates.of_body ht (wp_seq ht.flush (wp_storeLoop (n := n) (by decide) list false _ ht.rep ht.flush rfl)
    fun u hsu hru => wp_writeBack computes_U32_ADD hru hsu.1 n fun v hsv hrv _ =>
      Microcode.WP.nil ⟨hsu.trans hsv, ?_⟩) ?_
  · have hexec : exec prog a (.stm ⟨n.val, by omega⟩ list) = { a.put n (a.r n + listBytes list) with
        mem := storeRegs prog (getNat a) (bitsFrom 8 0 list.toNat) (a.r n) a.mem }.next := by
      have hget : a.get ⟨n.val, by omega⟩ = a.r n := dif_pos n.isLt
      show ({ a.next.set ⟨n.val, by omega⟩ (a.get ⟨n.val, by omega⟩ + listBytes list) with
        mem := storeRegs prog (getNat a) (regsOf list) (a.get ⟨n.val, by omega⟩) a.mem } : State M) = _
      rw [next_set n.isLt, regsOf_eq list list.isLt, hget]
      rfl
    rw [hexec]
    exact hrv.next
  · exact congrArg State.pc (next_set n.isLt _)

/-! ## `LDM` -/

/-- **The loop of `LDM`.** The invariant: the base, or `LREG_TMP1` once it was used, has the address of the register
that is looked at, or a word less when it is not in the list. -/
theorem wp_loadLoop {n : Fin 15} {k i : ℕ} (hik : i + k ≤ 15) (list : BitVec w) (firstuse : Bool) (addr : BitVec 32) (h : Shows a c)
    (hf : c.state.flush = false) (hfirst : firstuse = false → list.getLsbD 0 = false)
    (hinv : (c.state.rf (if firstuse then LREG_TMP1 else lreg n)).setWidth 32 =
      (if list.getLsbD 0 then addr else addr - 4)) :
    (uops prog).WP (loadLoop (lreg n) k i list firstuse) c fun t => Stays c t ∧
      Shows (loadRegs prog (bitsFrom k i list.toNat) addr a) t := by
  induction k generalizing i list firstuse a c addr with
  | zero => exact Microcode.WP.nil ⟨⟨hf, rfl⟩, h⟩
  | succ k ih =>
    rw [loadLoop, List.append_assoc]
    cases hbit : list.getLsbD 0 with
    | false =>
      rw [bitsFrom_false hbit, if_neg Bool.false_ne_true, List.nil_append]
      rw [hbit, if_neg Bool.false_ne_true] at hinv
      refine wp_moveIf h hf hinv fun t hs hr _ ht => ?_
      refine (ih (by omega) (list >>> 1) _ addr hr hs.1 ?_ ?_).mono fun u hu => ⟨hs.trans hu.1, hu.2⟩
      · cases firstuse <;> simp
      · cases hnext : (list >>> 1).getLsbD 0 with
        | true =>
          rw [hnext, if_pos rfl, if_pos rfl, sub_add_four] at ht
          rw [Bool.or_true, if_pos rfl, if_pos rfl]
          exact ht
        | false =>
          rw [hnext, if_neg Bool.false_ne_true, if_neg Bool.false_ne_true] at ht
          rw [Bool.or_false, if_neg Bool.false_ne_true]
          exact ht
    | true =>
      obtain rfl : firstuse = true := by
        cases firstuse with
        | true => rfl
        | false => exact absurd ((hfirst rfl).symm.trans hbit) Bool.false_ne_true
      rw [bitsFrom_true hbit, if_pos rfl]
      rw [hbit, if_pos rfl, if_pos rfl] at hinv
      refine wp_loadWord (by omega) h hf hinv fun t hs hr hothers => ?_
      rw [← hothers LREG_TMP1 (lreg_ne (.inr (by decide)))] at hinv
      refine wp_moveIf hr hs.1 hinv fun u hsu hru _ hu => ?_
      simp only [if_true, ite_self] at hu
      refine (ih (by omega) (list >>> 1) true (addr + 4) hru hsu.1 nofun ?_).mono fun v hv =>
        ⟨hs.trans (hsu.trans hv.1), ?_⟩
      · rw [if_pos rfl, hu, add_sub_four]
      · rw [loadRegs, set_ofNat (by omega)]
        exact hv.2

theorem loadLoop_zero {RDN : RegType} {k i : ℕ} (firstuse : Bool) : loadLoop RDN k i (0 : BitVec w) firstuse = [] := by
  have hshift : (0 : BitVec w) >>> 1 = 0 := BitVec.zero_ushiftRight
  have hbit : (0 : BitVec w).getLsbD 0 = false := BitVec.getLsbD_zero
  induction k generalizing i firstuse with
  | zero => rfl
  | succ k ih =>
    rw [loadLoop, hshift, hbit, if_neg Bool.false_ne_true, if_neg Bool.false_ne_true, ih]
    rfl

/-- Where the loop starts. The base counts as the address before the first register, unless that is register 0. -/
def ldmBase (list : BitVec 8) (base : BitVec 32) : BitVec 32 := if list.getLsbD 0 then base else base + 4

/-- **The whole loop of `LDM`.** -/
theorem wp_loadAll {n : Fin 15} {list : BitVec 8} (hbase : list.getLsbD 0 = true → n ≠ 0 ∨ list >>> 1 = 0) (h : Shows a c)
    (hf : c.state.flush = false) :
    (uops prog).WP (loadLoop (lreg n) 8 0 list false) c fun t => Stays c t ∧
      Shows (loadRegs prog (regsOf list) (ldmBase list (a.r n)) a) t := by
  rw [regsOf_eq list list.isLt]
  unfold ldmBase
  cases hbit : list.getLsbD 0 with
  | false =>
    rw [if_neg Bool.false_ne_true]
    refine wp_loadLoop (by decide) list false _ h hf (fun _ => hbit) ?_
    rw [hbit, if_neg Bool.false_ne_true, if_neg Bool.false_ne_true, h.low, add_sub_four]
  | true =>
    rw [if_pos rfl, bitsFrom_true hbit, loadLoop, List.append_assoc, hbit, if_pos rfl, if_neg Bool.false_ne_true]
    refine wp_loadWord (by decide) h hf (h.low n) fun t hs hr hothers => ?_
    rcases hbase hbit with hn | hlist
    · -- the base is still there
      have hne : lreg n ≠ lreg ⟨0, by decide⟩ := fun heq => hn (lreg_inj.1 heq)
      have hlow : (t.state.rf (lreg n)).setWidth 32 = a.r n := by rw [hothers _ hne, h.low]
      refine wp_moveIf hr hs.1 hlow fun u hsu hru _ hu => ?_
      rw [Bool.false_or]
      refine (wp_loadLoop (by decide) (list >>> 1) _ (a.r n + 4) hru hsu.1 id ?_).mono fun v hv =>
        ⟨hs.trans (hsu.trans hv.1), ?_⟩
      · rw [hu, add_sub_four]
      · rw [loadRegs, set_ofNat (by decide)]
        exact hv.2
    · -- register 0 is the only one
      have hno : (list >>> 1).getLsbD 0 = false := by
        rw [hlist]
        rfl
      rw [hno, if_neg Bool.false_ne_true, List.nil_append, hlist, loadLoop_zero]
      refine Microcode.WP.nil ⟨hs, ?_⟩
      rw [loadRegs, set_ofNat (by decide)]
      exact hr

/-- What `LDM` does, from any address on. -/
def ldmFrom (prog : Prog M) (a : State M) (n : Reg) (list : BitVec 8) (start : BitVec 32) : State M :=
  let s := loadRegs prog (regsOf list) start a.next
  if list.getLsbD n.val then s else s.set n (a.get n + listBytes list)

/-- **`LDM`.** The words are those that follow the base, or the ones after it. -/
theorem simulates_LDM {n : Fin 15} {list : BitVec 8} (h0 : list ≠ 0)
    (hbase : list.getLsbD 0 = true → n ≠ 0 ∨ list >>> 1 = 0) (h : Starts a c) :
    Emulates prog (loadMultiple cond (lreg n) list c.PC) .exact c
      (if skips a cond = true then a.next
        else ldmFrom prog a ⟨n.val, by omega⟩ list (ldmBase list (a.get ⟨n.val, by omega⟩))) := by
  have hget : a.get ⟨n.val, by omega⟩ = a.r n := dif_pos n.isLt
  rw [hget]
  have hpos : ¬list < 1 := by
    intro hlt
    refine h0 (BitVec.eq_of_toNat_eq ?_)
    rw [BitVec.lt_def] at hlt
    exact Nat.lt_one_iff.1 hlt
  have hnum : ((lreg n - 1 : RegType)).toNat = n.val := by
    have hall : ∀ n : Fin 15, ((lreg n - 1 : RegType)).toNat = n.val := by decide
    exact hall n
  have hregs : ∀ i ∈ regsOf list, i < 15 := fun i hi => by
    rw [regsOf_eq list list.isLt] at hi
    have := mem_bitsFrom hi
    omega
  unfold loadMultiple
  rw [if_neg hpos, List.append_assoc, bytesOf_eq, hnum]
  refine simulates_skipUnless h cond fun _ t ht => ?_
  set s := loadRegs prog (regsOf list) (ldmBase list (a.r n)) a with hs
  have hfixed : s.mem = a.mem ∧ s.pc = a.pc ∧ s.thumb = a.thumb := loadRegs_mem _ a hregs
  refine Emulates.of_body ht (wp_seq ht.flush (wp_loadAll hbase ht.rep ht.flush) fun u hsu hru => ?_) ?_
  · unfold ldmFrom
    rw [hget, loadRegs_next _ _ hregs, ← hs]
    rw [← hs] at hru
    cases hmem : list.getLsbD n.val with
    | true =>
      rw [Bool.not_true, if_neg Bool.false_ne_true, if_pos rfl]
      exact Microcode.WP.nil ⟨hsu, hru.next⟩
    | false =>
      have hkeep : s.r n = a.r n := loadRegs_of_not_mem _ a hregs fun hin => by
        rw [regsOf_eq list list.isLt] at hin
        have := (mem_bitsFrom hin).2.2
        exact absurd (hmem.symm.trans this) Bool.false_ne_true
      rw [Bool.not_false, if_pos rfl, if_neg Bool.false_ne_true, next_set n.isLt, ← hkeep]
      exact wp_writeBack computes_U32_ADD hru hsu.1 n fun v hsv hrv _ => Microcode.WP.nil ⟨hsu.trans hsv, hrv.next⟩
  · unfold ldmFrom
    rw [loadRegs_next _ _ hregs, ← hs]
    split
    · exact congrArg (· + 2) hfixed.2.1
    · exact (congrArg State.pc (next_set n.isLt _)).trans (congrArg (· + 2) hfixed.2.1)

end Esesc.Emul
