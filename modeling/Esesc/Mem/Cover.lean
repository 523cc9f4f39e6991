import Esesc.Mem.LineTag

/-!
# The lines an invalidate reaches

`doInvalidate` and `ffinvalidate` visit `L / (ls + 1) + 1` lines of `ls` bytes for a lower-level
line of `L` bytes. That many lines cover it as long as there are at most `ls + 1` of them.

* `run_cacheOk`: the array keeps its invariant along every run.
* `invalidateLines_spec`: the loop invalidates the lines with the tags that it visits.
* `invalidate_covers_iff`: it covers the lower-level line, in every reachable state, exactly when
  that line is a single one here, or is not too long.
-/

namespace Esesc.Mem

open Esesc.Suc Esesc.Lib

/-! ## The array along runs -/

section Runs

variable {k : CacheConfig} {b : CacheCore CState} {c c' : Cache}

/-- The array of a cache is well formed. -/
abbrev BankOk (k : CacheConfig) (b : CacheCore CState) : Prop := CacheCore.CacheOk k.org k.g b

/-- A change of a line keeps its tag or clears it. -/
def KeepsTag (f : CState → CState) : Prop := ∀ s, (f s).tag = s.tag ∨ (f s).tag = 0

theorem keepsTag_invalidate : KeepsTag invalidate := fun _ => .inr rfl

theorem setLine_ok (h : BankOk k b) (l : ℕ) {f : CState → CState} (hf : KeepsTag f) :
    BankOk k (b.updLine l f) := h.setLine l (hf _)

theorem lookLine_ok (h : BankOk k b) (mreq : MemRequest) (l : ℕ) : BankOk k (lookLine mreq b l) := by
  unfold lookLine
  split
  · exact setLine_ok h l fun _ => .inl rfl
  · exact setLine_ok h l fun _ => .inl rfl

/-- One request. -/
theorem look_ok (h : BankOk k b) (cb : Retry) : BankOk k (look k b cb).2 := by
  have hfind := h.findLine cb.mreq.addr
  cases hl : (b.findLine k.org k.g cb.mreq.addr).1 with
  | none =>
    simp only [look, hl]
    exact hfind
  | some l =>
    have hpre : BankOk k ((b.findLine k.org k.g cb.mreq.addr).2.updLine l .prefetchNone) :=
      setLine_ok hfind l fun _ => .inl rfl
    have hinv := setLine_ok hpre l keepsTag_invalidate
    cases cb with
    | doRead mreq =>
      simp only [look, hl]
      exact hpre
    | doWrite mreq =>
      simp only [look, hl]
      split
      · split
        · exact hinv
        · exact setLine_ok hinv l fun _ => .inl rfl
      · exact setLine_ok hpre l fun _ => .inl rfl
    | doBusRead mreq =>
      simp only [look, hl]
      split
      · exact hfind
      split
      · split
        · split
          · exact hinv
          · exact lookLine_ok hinv mreq l
        · exact lookLine_ok hpre mreq l
      · exact hpre

theorem retires_ok {addr : AddrType} (h : c.Retires k addr c') (hc : BankOk k c.bank) :
    BankOk k c'.bank := by
  induction h with
  | done _ => exact hc
  | @stop c addr cb m _ hstop =>
    obtain ⟨-, he⟩ := Cache.begin_stop hstop
    rw [Cache.endRetire, he.bank]
    exact look_ok hc cb
  | @next c c' addr cb m _ hnext _ ih =>
    obtain ⟨-, he⟩ := Cache.begin_next hnext
    rw [Cache.endRetire, (c'.finish_effect cb).bank]
    exact ih (he.bank ▸ look_ok hc cb)

theorem firstTry_ok (hc : BankOk k c.bank) (cb : Retry) : BankOk k (c.firstTry k cb).bank := by
  have hlook := look_ok hc cb
  rcases c.firstTry_cases (k := k) cb with ⟨-, he⟩ | ⟨-, he⟩ | ⟨-, -, he⟩ | ⟨-, -, he⟩ <;> exact he.bank ▸ hlook

theorem fill_ok (hc : BankOk k c.bank) (mreq : MemRequest) : BankOk k (c.fill k mreq).bank := by
  have hfind := hc.findLine mreq.addr
  rw [fill_bank_eq]
  rcases hl : c.bank.findLine k.org k.g mreq.addr with ⟨_ | l, b⟩
  · rw [hl] at hfind
    exact setLine_ok (hfind.fill mreq.addr) _ fun s => .inl (fillState_valid mreq s.setExtraBit).2
  · rw [hl] at hfind
    exact setLine_ok hfind l fun s => .inl (fillState_valid mreq s).2

/-! ## The loop -/

/-- One turn of the loop. -/
def visit (k : CacheConfig) (addr : AddrType) (b : CacheCore CState) : CacheCore CState :=
  match b.findLine k.org k.g addr with
  | (some l, b) => b.updLine l invalidate
  | (none, b) => b

/-- One of the lines that `n` turns look for has tag `t`. -/
def Visited (k : CacheConfig) (addr : AddrType) (n : ℕ) (t : AddrType) : Prop :=
  ∃ i < n, t = k.g.calcTag (addr + BitVec.ofNat 64 (i * k.g.lineSize))

theorem invalidateLines_succ (c : Cache) (addr : AddrType) (n : ℕ) :
    (c.invalidateLines k addr (n + 1)).2 =
      (Cache.invalidateLines k (addr + BitVec.ofNat 64 k.g.lineSize) n { c with bank := visit k addr c.bank }).2 := by
  unfold visit
  rcases hl : c.bank.findLine k.org k.g addr with ⟨_ | l, b⟩ <;>
    simp only [Cache.invalidateLines, Cache.readLine, hl, Cache.updLine]

theorem visited_succ {addr : AddrType} {n : ℕ} {t : AddrType} :
    Visited k addr (n + 1) t ↔ t = k.g.calcTag addr ∨ Visited k (addr + BitVec.ofNat 64 k.g.lineSize) n t := by
  have hshift : ∀ i, addr + BitVec.ofNat 64 ((i + 1) * k.g.lineSize) =
      addr + BitVec.ofNat 64 k.g.lineSize + BitVec.ofNat 64 (i * k.g.lineSize) := by
    intro i
    rw [Nat.succ_mul, Nat.add_comm, BitVec.ofNat_add, BitVec.add_assoc]
  constructor
  · rintro ⟨_ | i, hi, ht⟩
    · exact .inl (by simpa using ht)
    · exact .inr ⟨i, by omega, by rw [ht, hshift]⟩
  · rintro (ht | ⟨i, hi, ht⟩)
    · exact ⟨0, by omega, by simpa using ht⟩
    · exact ⟨i + 1, by omega, by rw [ht, hshift]⟩

theorem invalidate_invalidate (s : CState) : invalidate (invalidate s) = invalidate s := rfl

/-- What `n` turns from `addr` on do to the array. -/
structure Invalidates (k : CacheConfig) (addr : AddrType) (n : ℕ) (b b' : CacheCore CState) : Prop where
  ok : BankOk k b'
  /-- Only lines that are looked for are invalidated. -/
  only : ∀ x, b'.mem x = b.mem x ∨ Visited k addr n (b.mem x).tag ∧ b'.mem x = invalidate (b.mem x)
  /-- The lines that are looked for are gone. -/
  gone : ∀ t, Visited k addr n t → t ≠ 0 → ∀ x < k.g.numLines, (b'.mem x).tag ≠ t

theorem visit_invalidates (h : BankOk k b) (addr : AddrType) : Invalidates k addr 1 b (visit k addr b) := by
  have hone : ∀ t, Visited k addr 1 t ↔ t = k.g.calcTag addr := by
    intro t
    rw [visited_succ, or_iff_left]
    rintro ⟨i, hi, -⟩
    omega
  have hfind := h.findLine addr
  have hmem := b.findLine_mem k.org k.g addr
  unfold visit
  rcases hl : b.findLine k.org k.g addr with ⟨_ | l, b'⟩ <;> rw [hl] at hfind hmem <;> dsimp only at hfind hmem ⊢
  · refine ⟨hfind, fun x => .inl (by rw [hmem]), ?_⟩
    intro t ht h0 x hx hxt
    obtain rfl := (hone t).1 ht
    have hno := (CacheCore.findLine_spec h h0).2.2
    rw [hl] at hno
    obtain ⟨p, hp, rfl⟩ := h.line_pos hx
    exact hno p hp (by rw [CacheCore.tagAt, ← hmem]; exact hxt)
  · have htag : (b.mem l).tag = k.g.calcTag addr := CacheCore.findLine_tag (congrArg Prod.fst hl)
    have hother : ∀ x, x ≠ l → (b'.updLine l invalidate).mem x = b.mem x := by
      intro x hx
      rw [← hmem]
      exact Function.update_of_ne hx _ _
    have hself : (b'.updLine l invalidate).mem l = invalidate (b.mem l) := by
      rw [CacheCore.updLine_self, hmem]
    refine ⟨setLine_ok hfind l keepsTag_invalidate, ?_, ?_⟩
    · intro x
      by_cases hx : x = l
      · subst hx
        exact .inr ⟨(hone _).2 htag, hself⟩
      · exact .inl (hother x hx)
    · intro t ht h0 x hx hxt
      obtain rfl := (hone t).1 ht
      by_cases hxl : x = l
      · rw [hxl, hself] at hxt
        exact h0 hxt.symm
      · rw [hother x hxl] at hxt
        have hans := (CacheCore.findLine_spec h h0).2.2
        rw [hl] at hans
        obtain ⟨p, hp, hpl, -⟩ := hans
        exact hxl (h.line_uniq hx (hpl ▸ h.content_lt hp) (fun e => h0 (hxt.symm.trans e)) (hxt.trans htag.symm))

/-- **The loop.** -/
theorem invalidateLines_spec (c : Cache) (hc : BankOk k c.bank) (addr : AddrType) (n : ℕ) :
    Invalidates k addr n c.bank (c.invalidateLines k addr n).2.bank := by
  induction n generalizing c addr with
  | zero =>
    refine ⟨hc, fun _ => .inl rfl, ?_⟩
    rintro t ⟨i, hi, -⟩
    omega
  | succ n ih =>
    have hv := visit_invalidates hc addr
    have hrest := ih { c with bank := visit k addr c.bank } hv.ok (addr + BitVec.ofNat 64 k.g.lineSize)
    rw [invalidateLines_succ]
    have hfirst : ∀ {t}, Visited k addr 1 t → Visited k addr (n + 1) t := by
      rintro t ⟨i, hi, ht⟩
      exact ⟨i, by omega, ht⟩
    refine ⟨hrest.ok, ?_, ?_⟩
    · intro x
      rcases hv.only x with h1 | ⟨ht, h1⟩ <;> rcases hrest.only x with h2 | ⟨ht', h2⟩
      · exact .inl (h2.trans h1)
      · exact .inr ⟨visited_succ.2 (.inr (h1 ▸ ht')), by rw [h2, h1]⟩
      · exact .inr ⟨hfirst ht, h2.trans h1⟩
      · exact .inr ⟨hfirst ht, by rw [h2, h1, invalidate_invalidate]⟩
    · intro t ht h0 x hx hxt
      rcases visited_succ.1 ht with rfl | ht
      · -- gone after the first turn; later turns only clear tags
        have hgone := hv.gone _ (visited_succ.2 (.inl rfl)) h0 x hx
        rcases hrest.only x with h2 | ⟨-, h2⟩
        · exact hgone (by rw [← h2]; exact hxt)
        · rw [h2] at hxt
          exact h0 hxt.symm
      · exact hrest.gone t ht h0 x hx hxt

/-! ## Handlers -/

theorem doInvalidate_bank (hinc : k.inclusive = true) (c : Cache) (mreq : MemRequest) :
    (c.doInvalidate k mreq).bank =
      (c.invalidateLines k mreq.addr (mreq.lineSize / (k.g.lineSize + 1) + 1)).2.bank := by
  simp only [Cache.doInvalidate, hinc, Bool.not_true, Bool.false_eq_true, if_false, Cache.send, Cache.sendInvalidateAll]
  split
  · rfl
  · split <;> rfl

theorem doPushDown_ok (hc : BankOk k c.bank) (mreq : MemRequest) : BankOk k (c.doPushDown k mreq).bank := by
  have hfind := hc.findLine mreq.addr
  unfold Cache.doPushDown
  split
  · exact hc
  · rcases hl : c.bank.findLine k.org k.g mreq.addr with ⟨_ | l, b⟩ <;> rw [hl] at hfind <;>
      simp only [Cache.readLine, hl]
    · exact hfind
    · exact setLine_ok hfind l fun _ => .inl rfl

theorem ffaccess_ok (hc : BankOk k c.bank) {f : CState → CState} (hf : KeepsTag f) (addr : AddrType) :
    BankOk k (c.ffaccess k f addr).bank := by
  have hfind := hc.findLine addr
  unfold Cache.ffaccess
  rcases hl : c.bank.findLine k.org k.g addr with ⟨_ | l, b⟩ <;> rw [hl] at hfind <;> simp only [Cache.readLine, hl]
  · exact setLine_ok (hfind.fill addr) _ hf
  · exact hfind

theorem exec_ok (c : Cache) (op : Handler) (c' : Cache) (h : op.exec k c = some c') (hc : BankOk k c.bank) :
    BankOk k c'.bank := by
  cases op with
  | doRead mreq | doWrite mreq | doBusRead mreq =>
    obtain rfl := Option.some.inj h
    exact firstTry_ok hc _
  | doPushDown mreq =>
    obtain rfl := Option.some.inj h
    exact doPushDown_ok hc mreq
  | doPushUp mreq =>
    obtain ⟨c1, hc1, hret⟩ := c.doPushUp_retires (k := k) mreq
    obtain rfl : c1.answer k mreq = c' := Option.some.inj (hc1.symm.trans h)
    rw [(c1.answer_effect (k := k) mreq).bank]
    exact retires_ok hret (fill_ok hc mreq)
  | doInvalidate mreq =>
    obtain rfl := Option.some.inj h
    cases hinc : k.inclusive with
    | true =>
      rw [doInvalidate_bank hinc]
      exact (invalidateLines_spec c hc _ _).ok
    | false =>
      simp only [Cache.doInvalidate, hinc, Bool.not_false, if_true]
      exact hc
  | ffread addr =>
    obtain rfl := Option.some.inj h
    exact ffaccess_ok hc (f := .setShared) (fun _ => .inl rfl) addr
  | ffwrite addr =>
    obtain rfl := Option.some.inj h
    exact ffaccess_ok hc (f := .setExclusive) (fun _ => .inl rfl) addr
  | ffinvalidate addr ilineSize =>
    obtain rfl := Option.some.inj h
    exact (invalidateLines_spec c hc _ _).ok

/-- **Every run keeps the array well formed**, whatever slips. -/
theorem run_cacheOk {ops : List Handler} (h : run (Handler.exec k) (Cache.new k) ops = some c) : BankOk k c.bank :=
  run_inv (I := fun c => BankOk k c.bank) exec_ok h (CacheCore.new_ok k.org k.g 0)

end Runs

/-! ## Which lines have to be visited -/

section Cover

variable {k : CacheConfig} {addr : AddrType} {L n : ℕ}

/-- The addresses that a line covers: its bytes, in addressable units. -/
def span (g : Geometry) : ℕ := g.lineSize / g.addrUnit

theorem span_eq (g : Geometry) : span g = 2 ^ g.log2AddrLs ∧ span g * g.addrUnit = g.lineSize := by
  obtain ⟨s, hs, a, has, -, ha⟩ := g.sizes_pow
  obtain ⟨u, hu⟩ := g.addrUnit_pow
  have hle := g.addrUnit_le
  rw [ha, hu] at hle
  have hua : u ≤ a := (Nat.pow_le_pow_iff_right (by omega)).1 hle
  have hspan : span g = 2 ^ (a - u) := by
    rw [span, ha, hu]
    exact Nat.pow_div hua (by omega)
  refine ⟨?_, ?_⟩
  · rw [hspan, Geometry.log2AddrLs, ← span, hspan, log2i_pow _ (by omega)]
  · rw [hspan, ha, hu, ← Nat.pow_add, Nat.sub_add_cancel hua]

/-- Some address of `[addr, addr + L)` is in the line with tag `t`. -/
def Overlaps (g : Geometry) (addr : AddrType) (L : ℕ) (t : AddrType) : Prop :=
  t.toNat * span g < addr.toNat + L ∧ addr.toNat < (t.toNat + 1) * span g

/-- `[addr, addr + L)` is a line of the level below, of a size that fits an `int32_t`. -/
structure LowerLine (addr : AddrType) (L : ℕ) : Prop where
  pow : ∃ j < 31, L = 2 ^ j
  aligned : L ∣ addr.toNat

theorem LowerLine.end_le (h : LowerLine addr L) : addr.toNat + L ≤ 2 ^ 64 := by
  obtain ⟨j, hj, rfl⟩ := h.pow
  obtain ⟨q, hq⟩ := h.aligned
  have hlt := addr.isLt
  have hsplit : 2 ^ 64 = 2 ^ j * 2 ^ (64 - j) := by
    rw [← Nat.pow_add, Nat.add_sub_cancel' (by omega)]
  rw [hq, hsplit] at hlt ⊢
  have hq := Nat.lt_of_mul_lt_mul_left hlt
  calc 2 ^ j * q + 2 ^ j = 2 ^ j * (q + 1) := by rw [Nat.mul_succ]
    _ ≤ 2 ^ j * 2 ^ (64 - j) := Nat.mul_le_mul_left _ hq

theorem calcTag_toNat (g : Geometry) (a : AddrType) : (g.calcTag a).toNat = a.toNat / span g := by
  rw [(span_eq g).1, Geometry.calcTag, BitVec.toNat_ushiftRight, Nat.shiftRight_eq_div_pow]

/-- The tag that turn `i` looks for. -/
theorem visited_toNat (hlow : LowerLine addr L) (hn : n ≤ L / (k.g.lineSize + 1) + 1) {i : ℕ} (hi : i < n) :
    (k.g.calcTag (addr + BitVec.ofNat 64 (i * k.g.lineSize))).toNat = addr.toNat / span k.g + i * k.g.addrUnit := by
  have hspan := span_eq k.g
  have hpos : 0 < span k.g := by rw [hspan.1]; exact Nat.two_pow_pos _
  -- the visits stay inside the lower line
  have hin : i * k.g.lineSize < L ∨ i = 0 := by
    by_cases h0 : i = 0
    · exact .inr h0
    have h1 : i * (k.g.lineSize + 1) ≤ L := (Nat.le_div_iff_mul_le (by omega)).1 (by omega)
    rw [Nat.mul_succ] at h1
    omega
  have hlt := addr.isLt
  have hend := hlow.end_le
  have hno : addr.toNat + i * k.g.lineSize < 2 ^ 64 := by
    rcases hin with h | rfl
    · omega
    · simpa using hlt
  rw [calcTag_toNat, BitVec.toNat_add, BitVec.toNat_ofNat, Nat.mod_eq_of_lt (by omega : i * k.g.lineSize < 2 ^ 64),
    Nat.mod_eq_of_lt hno, ← hspan.2, Nat.mul_comm (span k.g), ← Nat.mul_assoc, Nat.add_mul_div_right _ _ hpos]

theorem span_pos (g : Geometry) : 0 < span g := by
  rw [(span_eq g).1]
  exact Nat.two_pow_pos _

/-- Two sizes that are powers of two: the lower line is part of one line, or made of several. -/
theorem LowerLine.parts (hlow : LowerLine addr L) (g : Geometry) :
    (L ≤ span g ∧ L ∣ span g) ∨ ∃ r, 1 < r ∧ L = r * span g := by
  obtain ⟨j, -, rfl⟩ := hlow.pow
  rw [(span_eq g).1]
  rcases Nat.lt_or_ge g.log2AddrLs j with hlt | hge
  · refine .inr ⟨2 ^ (j - g.log2AddrLs), Nat.one_lt_two_pow (by omega), ?_⟩
    rw [← Nat.pow_add, Nat.sub_add_cancel hlt.le]
  · exact .inl ⟨Nat.pow_le_pow_right (by omega) hge, Nat.pow_dvd_pow 2 hge⟩

/-- The tags of the lines that overlap. -/
theorem overlaps_iff_one (hlow : LowerLine addr L) {g : Geometry} (hL : L ∣ span g) (t : AddrType) :
    Overlaps g addr L t ↔ t.toNat = addr.toNat / span g := by
  obtain ⟨r, hr⟩ := hL
  obtain ⟨q, hq⟩ := hlow.aligned
  have hpos := span_pos g
  have hLpos : 0 < L := Nat.pos_of_ne_zero fun h0 => by simp [hr, h0] at hpos
  rw [eq_comm, Nat.div_eq_iff hpos, Overlaps]
  constructor
  · rintro ⟨h1, h2⟩
    -- both ends are multiples of `L`, so no line starts inside
    have h3 : L * (t.toNat * r) < L * (q + 1) := by
      calc L * (t.toNat * r) = t.toNat * span g := by rw [hr]; ring
        _ < addr.toNat + L := h1
        _ = L * (q + 1) := by rw [hq]; ring
    have h4 : t.toNat * r ≤ q := Nat.lt_succ_iff.1 (Nat.lt_of_mul_lt_mul_left h3)
    have h5 : t.toNat * span g ≤ addr.toNat := by
      calc t.toNat * span g = L * (t.toNat * r) := by rw [hr]; ring
        _ ≤ L * q := Nat.mul_le_mul_left L h4
        _ = addr.toNat := hq.symm
    rw [Nat.succ_mul] at h2
    exact ⟨h5, by omega⟩
  · rintro ⟨h1, h2⟩
    rw [Nat.succ_mul]
    omega

theorem overlaps_iff_many (hlow : LowerLine addr L) {g : Geometry} {r : ℕ} (hL : L = r * span g) (t : AddrType) :
    Overlaps g addr L t ↔ addr.toNat / span g ≤ t.toNat ∧ t.toNat < addr.toNat / span g + r := by
  obtain ⟨q, hq⟩ := hlow.aligned
  have hpos := span_pos g
  have haddr : addr.toNat = q * r * span g := by rw [hq, hL]; ring
  rw [Overlaps, haddr, hL, Nat.mul_div_cancel _ hpos, ← Nat.add_mul, Nat.mul_lt_mul_right hpos,
    Nat.mul_lt_mul_right hpos]
  omega

/-- `n` turns are enough and not too many: the lower line is one line here, or `n` of them. -/
def Exact (k : CacheConfig) (L n : ℕ) : Prop :=
  L ≤ span k.g ∨ k.g.addrUnit = 1 ∧ n * k.g.lineSize = L

theorem span_le (g : Geometry) : span g ≤ g.lineSize := Nat.div_le_self _ _

theorem span_unit (h : k.g.addrUnit = 1) : span k.g = k.g.lineSize := by
  rw [span, h, Nat.div_one]

section

variable (hlow : LowerLine addr L) (hpos : 0 < n) (hn : n ≤ L / (k.g.lineSize + 1) + 1)

include hlow hn in
theorem visited_iff {t : AddrType} :
    Visited k addr n t ↔ ∃ i < n, t.toNat = addr.toNat / span k.g + i * k.g.addrUnit := by
  constructor
  · rintro ⟨i, hi, rfl⟩
    exact ⟨i, hi, visited_toNat hlow hn hi⟩
  · rintro ⟨i, hi, ht⟩
    exact ⟨i, hi, BitVec.eq_of_toNat_eq (ht.trans (visited_toNat hlow hn hi).symm)⟩

include hlow hpos hn

/-- With the exact number of turns, the lines visited are those that overlap. -/
theorem visited_iff_overlaps (hE : Exact k L n) (t : AddrType) : Visited k addr n t ↔ Overlaps k.g addr L t := by
  rw [visited_iff hlow hn]
  rcases hE with hle | ⟨hu, hL⟩
  · have hdvd : L ∣ span k.g := by
      rcases hlow.parts k.g with h | ⟨r, hr, hL⟩
      · exact h.2
      · have := Nat.mul_lt_mul_of_pos_right hr (span_pos k.g)
        omega
    obtain rfl : n = 1 := by
      have hlt : L < k.g.lineSize + 1 := by have := span_le k.g; omega
      rw [Nat.div_eq_of_lt hlt] at hn
      omega
    rw [overlaps_iff_one hlow hdvd]
    constructor
    · rintro ⟨i, hi, ht⟩
      obtain rfl : i = 0 := by omega
      simpa using ht
    · exact fun ht => ⟨0, by omega, by simpa using ht⟩
  · rw [overlaps_iff_many hlow (by rw [span_unit hu, hL]), hu]
    constructor
    · rintro ⟨i, hi, ht⟩
      omega
    · rintro ⟨h1, h2⟩
      exact ⟨t.toNat - addr.toNat / span k.g, by omega, by omega⟩

omit hpos in
/-- With too few turns, a line is missed; it is not line 0. -/
theorem exists_missed (hE : ¬Exact k L n) :
    ∃ t : AddrType, t ≠ 0 ∧ t.toNat * span k.g < 2 ^ 64 ∧ Overlaps k.g addr L t ∧ ¬Visited k addr n t := by
  obtain ⟨hlt, hmany⟩ := not_or.1 hE
  obtain ⟨r, hr, hL⟩ : ∃ r, 1 < r ∧ L = r * span k.g := by
    rcases hlow.parts k.g with h | h
    · exact absurd h.1 hlt
    · exact h
  have hspan := span_pos k.g
  have hend := hlow.end_le
  -- the tag `q + d` of a line of the range, `d` lines behind the first
  have htag : ∀ d, 0 < d → d < r → (∀ i < n, i * k.g.addrUnit ≠ d) →
      ∃ t : AddrType, t ≠ 0 ∧ t.toNat * span k.g < 2 ^ 64 ∧ Overlaps k.g addr L t ∧ ¬Visited k addr n t := by
    intro d hd hdr hmiss
    have hq : addr.toNat / span k.g * span k.g ≤ addr.toNat := Nat.div_mul_le_self _ _
    have hlt : (addr.toNat / span k.g + d) * span k.g < 2 ^ 64 := by
      have := Nat.mul_lt_mul_of_pos_right hdr hspan
      rw [Nat.add_mul]
      omega
    have hle : addr.toNat / span k.g + d ≤ (addr.toNat / span k.g + d) * span k.g := Nat.le_mul_of_pos_right _ hspan
    have hnat : (BitVec.ofNat 64 (addr.toNat / span k.g + d)).toNat = addr.toNat / span k.g + d := by
      rw [BitVec.toNat_ofNat, Nat.mod_eq_of_lt (by omega)]
    refine ⟨BitVec.ofNat 64 (addr.toNat / span k.g + d), ?_, by rw [hnat]; exact hlt, ?_, ?_⟩
    · intro h0
      rw [h0, show (0 : AddrType).toNat = 0 from rfl] at hnat
      exact (Nat.add_pos_right _ hd).ne hnat
    · rw [overlaps_iff_many hlow hL, hnat]
      omega
    · rw [visited_iff hlow hn, hnat]
      rintro ⟨i, hi, ht⟩
      exact hmiss i hi (by omega)
  by_cases hu : k.g.addrUnit = 1
  · -- the last line
    rw [span_unit hu] at hL
    have hlt : L / (k.g.lineSize + 1) < r := by
      rw [Nat.div_lt_iff_lt_mul (by omega), hL, Nat.mul_succ]
      omega
    have hne : n ≠ r := fun e => hmany ⟨hu, by rw [e, hL]⟩
    refine htag (r - 1) (by omega) (by omega) fun i hi => ?_
    rw [hu]
    omega
  · -- the turns go over several lines at a time, and miss the second one
    refine htag 1 (by omega) hr fun i _ he => ?_
    exact hu (Nat.eq_one_of_mul_eq_one_left he)

end

/-! ## What is left after an invalidate -/

/-- What an invalidate of `[addr, addr + L)` is for. -/
structure Covers (k : CacheConfig) (addr : AddrType) (L : ℕ) (c c' : Cache) : Prop where
  /-- No valid line overlaps the range any more. -/
  gone : ∀ x < k.g.numLines, isValid (c'.bank.mem x) = true → ¬Overlaps k.g addr L (c'.bank.mem x).tag
  /-- Valid lines outside of the range are as they were. -/
  kept : ∀ x < k.g.numLines, isValid (c.bank.mem x) = true → ¬Overlaps k.g addr L (c.bank.mem x).tag →
    c'.bank.mem x = c.bank.mem x

/-- A line that looks empty is empty, or it does not matter: the address is not in line 0. -/
def Told (k : CacheConfig) (addr : AddrType) (c : Cache) : Prop := k.g.calcTag addr ≠ 0 ∨ StateTagAgree c.bank

theorem isValid_eq (s : CState) : isValid s = true ↔ s.state ≠ .I := by
  simp [isValid]

/-- The tag of line 0 is in the range only if the range starts there. -/
theorem calcTag_zero_of_overlaps (h : Overlaps k.g addr L 0) : k.g.calcTag addr = 0 := by
  apply BitVec.eq_of_toNat_eq
  rw [calcTag_toNat, show (0 : AddrType).toNat = 0 from rfl]
  have hlt : addr.toNat < span k.g := by simpa [Overlaps] using h.2
  exact Nat.div_eq_of_lt hlt

theorem covers_of_exact (hlow : LowerLine addr L) (hpos : 0 < n) (hn : n ≤ L / (k.g.lineSize + 1) + 1)
    (hE : Exact k L n) {c c' : Cache} (hinv : Invalidates k addr n c.bank c'.bank) (htold : Told k addr c) :
    Covers k addr L c c' := by
  have hiff := visited_iff_overlaps hlow hpos hn hE
  refine ⟨?_, ?_⟩
  · intro x hx hv hover
    by_cases h0 : (c'.bank.mem x).tag = 0
    · -- a line that looks empty: it was empty, or has just been emptied
      rw [h0] at hover
      have hagree : StateTagAgree c.bank := htold.resolve_left fun h => h (calcTag_zero_of_overlaps hover)
      rw [isValid_eq] at hv
      rcases hinv.only x with h1 | ⟨-, h1⟩
      · rw [h1] at hv h0
        exact hv ((hagree x).2 h0)
      · rw [h1] at hv
        exact hv rfl
    · exact hinv.gone _ ((hiff _).2 hover) h0 x hx rfl
  · intro x _ _ hout
    rcases hinv.only x with h1 | ⟨hvis, -⟩
    · exact h1
    · exact absurd ((hiff _).1 hvis) hout

/-- A line that is brought in by a fast-forward read of an empty cache. -/
theorem ffread_new (t : AddrType) (h0 : t ≠ 0) (hlt : t.toNat * span k.g < 2 ^ 64) :
    ∃ c, run (Handler.exec k) (Cache.new k) [.ffread (k.g.calcAddr4Tag t)] = some c ∧ StateTagAgree c.bank ∧
      ∃ x < k.g.numLines, (c.bank.mem x).tag = t ∧ isValid (c.bank.mem x) = true := by
  have htag : k.g.calcTag (k.g.calcAddr4Tag t) = t := by
    apply BitVec.eq_of_toNat_eq
    rw [calcTag_toNat, Geometry.calcAddr4Tag, BitVec.toNat_shiftLeft, Nat.shiftLeft_eq, ← (span_eq k.g).1,
      Nat.mod_eq_of_lt hlt, Nat.mul_div_cancel _ (span_pos k.g)]
  refine ⟨(Cache.new k).ffread k (k.g.calcAddr4Tag t), rfl, ?_, ?_⟩
  · refine ffaccess_agree (agrees_new k).bank (f := .setShared) (fun s => ⟨nofun, rfl⟩) _ ?_
    rw [htag]
    exact Bool.and_eq_false_iff.2 (.inr (beq_false_of_ne h0))
  · have hnew : BankOk k (Cache.new k).bank := CacheCore.new_ok k.org k.g 0
    have hfind := hnew.findLine (k.g.calcAddr4Tag t)
    have hnone : ((Cache.new k).bank.findLine k.org k.g (k.g.calcAddr4Tag t)).1 = none := by
      cases hl : ((Cache.new k).bank.findLine k.org k.g (k.g.calcAddr4Tag t)).1 with
      | none => rfl
      | some l =>
        have hl := CacheCore.findLine_tag hl
        rw [htag] at hl
        exact absurd hl.symm h0
    set b := ((Cache.new k).bank.findLine k.org k.g (k.g.calcAddr4Tag t)).2 with hb
    have hbank : ((Cache.new k).ffread k (k.g.calcAddr4Tag t)).bank =
        (b.fillLine k.org k.g (k.g.calcAddr4Tag t)).2.2.updLine (b.fillLine k.org k.g (k.g.calcAddr4Tag t)).1
          CState.setShared := by
      simp only [Cache.ffread, Cache.ffaccess, Cache.readLine, hnone, hb]
    refine ⟨(b.fillLine k.org k.g (k.g.calcAddr4Tag t)).1, (hfind.findLine2Replace _).2, ?_, ?_⟩
    · rw [hbank, CacheCore.updLine_self, CacheCore.fillLine_mem, htag]
      rfl
    · rw [hbank, CacheCore.updLine_self]
      rfl

/-- `n` turns cover the lower line in every reachable state exactly when their number is right. -/
theorem covers_iff_exact (hlow : LowerLine addr L) (hpos : 0 < n) (hn : n ≤ L / (k.g.lineSize + 1) + 1)
    {f : Cache → Cache} (hf : ∀ c : Cache, (f c).bank = (c.invalidateLines k addr n).2.bank) :
    (∀ ops c, run (Handler.exec k) (Cache.new k) ops = some c → Told k addr c → Covers k addr L c (f c)) ↔
      Exact k L n := by
  constructor
  · intro hall
    by_contra hE
    obtain ⟨t, h0, hlt, hover, hvis⟩ := exists_missed hlow hn hE
    obtain ⟨c, hrun, hagree, x, hx, hxt, hv⟩ := ffread_new (k := k) t h0 hlt
    have hcov := hall _ c hrun (.inr hagree)
    have hinv := invalidateLines_spec c (run_cacheOk hrun) addr n
    -- no turn looks for the line, so it is still there
    have hsame : (f c).bank.mem x = c.bank.mem x := by
      rw [hf]
      rcases hinv.only x with h1 | ⟨h1, -⟩
      · exact h1
      · exact absurd (hxt ▸ h1) hvis
    exact hcov.gone x hx (by rw [hsame]; exact hv) (by rw [hsame, hxt]; exact hover)
  · intro hE ops c hrun htold
    refine covers_of_exact hlow hpos hn hE ?_ htold
    rw [hf]
    exact invalidateLines_spec c (run_cacheOk hrun) addr n

/-! ## The number of turns -/

theorem exact_turns (hlow : LowerLine addr L) :
    Exact k L (L / (k.g.lineSize + 1) + 1) ↔
      L ≤ span k.g ∨ k.g.addrUnit = 1 ∧ L ≤ k.g.lineSize * (k.g.lineSize + 1) := by
  refine or_congr_right' fun hlt => and_congr_right fun hu => ?_
  obtain ⟨r, hr, hL⟩ : ∃ r, 1 < r ∧ L = r * span k.g := by
    rcases hlow.parts k.g with h | h
    · exact absurd h.1 hlt
    · exact h
  have hpos : 0 < k.g.lineSize := by rw [← span_unit hu]; exact span_pos k.g
  rw [span_unit hu] at hL
  have hdiv : L / (k.g.lineSize + 1) < r := by
    rw [Nat.div_lt_iff_lt_mul (by omega), hL, Nat.mul_succ]
    omega
  calc (L / (k.g.lineSize + 1) + 1) * k.g.lineSize = L
      ↔ L / (k.g.lineSize + 1) + 1 = r := by nth_rewrite 2 [hL]; exact Nat.mul_left_inj hpos.ne'
    _ ↔ r - 1 ≤ L / (k.g.lineSize + 1) := by omega
    _ ↔ (r - 1) * (k.g.lineSize + 1) ≤ L := Nat.le_div_iff_mul_le (by omega)
    _ ↔ r ≤ k.g.lineSize + 1 := by
      rw [hL]
      obtain ⟨q, rfl⟩ : ∃ q, r = q + 1 := ⟨r - 1, by omega⟩
      rw [Nat.add_sub_cancel, Nat.mul_succ, Nat.succ_mul]
      omega
    _ ↔ L ≤ k.g.lineSize * (k.g.lineSize + 1) := by
      rw [hL, Nat.mul_comm k.g.lineSize]
      exact (Nat.mul_le_mul_right_iff hpos).symm

/-- The size that reaches `doInvalidate` in a request is a `uint16_t`. -/
theorem exact_turns_request (hlow : LowerLine addr L) :
    Exact k L (L % 2 ^ 16 / (k.g.lineSize + 1) + 1) ↔
      L ≤ span k.g ∨ k.g.addrUnit = 1 ∧ L ≤ k.g.lineSize * (k.g.lineSize + 1) ∧ L < 2 ^ 16 := by
  by_cases h16 : L < 2 ^ 16
  · rw [Nat.mod_eq_of_lt h16, exact_turns hlow]
    simp only [h16, and_true]
  · -- the size is cut to 0: one turn
    have h0 : L % 2 ^ 16 = 0 := by
      obtain ⟨j, -, rfl⟩ := hlow.pow
      have hj : 16 ≤ j := by
        by_contra hlt
        exact h16 (Nat.pow_lt_pow_right (by omega) (by omega))
      exact Nat.mod_eq_zero_of_dvd (Nat.pow_dvd_pow 2 hj)
    rw [h0, Nat.zero_div, Exact]
    refine or_congr_right' fun hlt => ⟨?_, fun h => absurd h.2.2 h16⟩
    rintro ⟨hu, hL⟩
    rw [span_unit hu] at hlt
    omega

/-- **Invalidates cover the lower-level line.** For every cache and every aligned line of the level
below: the invalidate leaves no valid line that overlaps it and touches no other, in every
reachable state where the tags tell which lines are empty, exactly when the lower line is
within one line of the cache, or the cache has byte addresses and the lower line is at most
`ls * (ls + 1)` bytes long, and fits a `uint16_t` when it comes in a request. -/
theorem invalidate_covers_iff (k : CacheConfig) (hinc : k.inclusive = true) (addr : AddrType) (L : ℕ)
    (hlow : LowerLine addr L) (mreq : MemRequest) (haddr : mreq.addr = addr) (hsize : mreq.lineSize = L % 2 ^ 16) :
    ((∀ ops c, run (Handler.exec k) (Cache.new k) ops = some c → Told k addr c →
        Covers k addr L c (c.doInvalidate k mreq)) ↔
      L ≤ k.g.lineSize / k.g.addrUnit ∨
        k.g.addrUnit = 1 ∧ L ≤ k.g.lineSize * (k.g.lineSize + 1) ∧ L < 2 ^ 16) ∧
    ((∀ ops c, run (Handler.exec k) (Cache.new k) ops = some c → Told k addr c →
        Covers k addr L c (c.ffinvalidate k addr L)) ↔
      L ≤ k.g.lineSize / k.g.addrUnit ∨ k.g.addrUnit = 1 ∧ L ≤ k.g.lineSize * (k.g.lineSize + 1)) := by
  refine ⟨?_, ?_⟩
  · have hn : L % 2 ^ 16 / (k.g.lineSize + 1) + 1 ≤ L / (k.g.lineSize + 1) + 1 :=
      Nat.add_le_add_right (Nat.div_le_div_right (Nat.mod_le _ _)) 1
    rw [covers_iff_exact hlow (Nat.succ_pos _) hn, exact_turns_request hlow, span]
    intro c
    rw [doInvalidate_bank hinc, haddr, hsize]
  · rw [covers_iff_exact hlow (Nat.succ_pos _) le_rfl, exact_turns hlow, span]
    exact fun c => rfl

/-- An invalidate for a line of the level below, of 128 bytes. -/
def invalidate128 : MemRequest := { addr := 0x1000, type := .invalidate, homeNode := 1, lineSize := 128, pending := 1 }

theorem invalidate_covers_iff_two :
    LowerLine 0x1000 128 ∧
      (∀ ops c, run (Handler.exec smallL1) (Cache.new smallL1) ops = some c → Told smallL1 0x1000 c →
        Covers smallL1 0x1000 128 c (c.doInvalidate smallL1 invalidate128)) ∧
      ∀ ops c, run (Handler.exec smallL1) (Cache.new smallL1) ops = some c → Told smallL1 0x1000 c →
        Covers smallL1 0x1000 128 c (c.ffinvalidate smallL1 0x1000 128) := by
  have hlow : LowerLine 0x1000 128 := ⟨⟨7, by decide, rfl⟩, by decide⟩
  have h := invalidate_covers_iff smallL1 rfl 0x1000 128 hlow invalidate128 rfl rfl
  exact ⟨hlow, h.1.2 (.inr (by decide)), h.2.2 (.inr (by decide))⟩

/-- A cache with lines of 8 bytes. -/
def narrowL1 : CacheConfig :=
  { smallL1 with
    g := ⟨1024, 8, 1, 1, smallL1.g.size_pow, ⟨3, rfl⟩, Geometry.byte_pow, Geometry.byte_pow, by decide, by decide⟩ }

/-- Sixteen lines of 8 bytes make up the lower line, and the loop visits fifteen: the last one,
which a read has brought in, stays. -/
theorem invalidate_misses_last :
    LowerLine 0x1000 128 ∧
      ∃ c, run (Handler.exec narrowL1) (Cache.new narrowL1) [.ffread 0x1078] = some c ∧ Told narrowL1 0x1000 c ∧
        ¬Covers narrowL1 0x1000 128 c (c.doInvalidate narrowL1 invalidate128) ∧
        ¬Covers narrowL1 0x1000 128 c (c.ffinvalidate narrowL1 0x1000 128) := by
  have hrun : ((run (Handler.exec narrowL1) (Cache.new narrowL1) [.ffread 0x1078]).any fun c =>
      decide ((((c.doInvalidate narrowL1 invalidate128).bank.mem 15).tag = 0x20F ∧
          isValid ((c.doInvalidate narrowL1 invalidate128).bank.mem 15) = true) ∧
        ((c.ffinvalidate narrowL1 0x1000 128).bank.mem 15).tag = 0x20F ∧
          isValid ((c.ffinvalidate narrowL1 0x1000 128).bank.mem 15) = true)) = true := by decide +kernel
  obtain ⟨c, hc, hd⟩ := (Option.any_eq_true _ _).1 hrun
  obtain ⟨⟨ht1, hv1⟩, ht2, hv2⟩ := of_decide_eq_true hd
  have hover : Overlaps narrowL1.g 0x1000 128 0x20F := ⟨by decide, by decide⟩
  refine ⟨⟨⟨7, by decide, rfl⟩, by decide⟩, c, hc, .inl (by decide), fun h => ?_, fun h => ?_⟩
  · exact h.gone 15 (by decide) hv1 (by rw [ht1]; exact hover)
  · exact h.gone 15 (by decide) hv2 (by rw [ht2]; exact hover)

end Cover

end Esesc.Mem
