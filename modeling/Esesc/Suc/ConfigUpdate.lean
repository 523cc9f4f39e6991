import Esesc.Suc.Config

/-!
# Updating a configuration (`misc/libsuc/Config.cpp`)

`updateRecord` writes to the record that covers a position, or adds one. A record is one value for all positions of its
range. A string is added at the position, and a number at position 0; environment variables override both.

* `errorFree_build`: a configuration that was read without an error has one record for a position at most.
* `getRecord_update`, `getRecord_addRecord`: what is found after each of the two.
* `updateRecord_put_iff`: when the update changes this position, and nothing else.
-/

namespace Esesc.Suc.Conf

/-- A `double`, as its bits. -/
abbrev Double := BitVec 64

/-- The type of a record, with the member of the union that belongs to it. -/
inductive Content
  | RCDouble (d : Double)
  | RCInt (n : BitVec 32)
  | RCBool (b : Bool)
  | RCCharPtr (s : CStr)
  deriving DecidableEq

/-- What an update writes. -/
inductive Value
  | double (v : Double)
  | charPtr (val : CStr)
  deriving DecidableEq

def Value.content : Value → Content
  | .double v => .RCDouble v
  | .charPtr val => .RCCharPtr val

/-- `getEnvVar` of the configuration, and `atof`. -/
structure Environment where
  getEnvVar : CStr → CStr → Option CStr
  atof : CStr → Double

/-- `isdigit(env[0])`. -/
def isdigit : CStr → Bool
  | [] => false
  | c :: _ => 48 ≤ c.1 && c.1 ≤ 57

/-- `setDouble` and `setCharPtr`. The type of the record is that of the value, as is asserted before. -/
def Record.set (r : Record Content) (v : Value) : Option (Record Content) :=
  match r.val, v with
  | .RCDouble _, .double v => some { r with val := .RCDouble v }
  | .RCCharPtr _, .charPtr val => some { r with val := .RCCharPtr val }
  | _, _ => none

/-- The first entry that passes a test is written to. -/
def updateFirst (p : Entry Content → Bool) (r : Record Content) : List (Entry Content) → List (Entry Content)
  | [] => []
  | e :: es => if p e then (e.1, r) :: es else e :: updateFirst p r es

variable (env : Environment) (h : HashMultimap Content) (c : Config Content) (block name : CStr)

/-- `addRecord` of a number. -/
def addRecordDouble (v : Double) : Config Content :=
  match env.getEnvVar block name with
  | some e =>
    if isdigit e then addRecord h c block name ⟨.RCDouble (env.atof e), 0, 0, false⟩
    else addRecord h { c with errorReading := true } block name ⟨.RCDouble v, 0, 0, false⟩
  | none => addRecord h c block name ⟨.RCDouble v, 0, 0, false⟩

/-- `addVRecord` of a string. With an environment variable no record is made, and a null pointer is added. -/
def addVRecordCharPtr (val : CStr) (X Y : ℤ) : Option (Config Content) :=
  let c := if X > Y then { c with errorReading := true } else c
  match env.getEnvVar block name with
  | some _ => none
  | none => some (addRecord h c block name ⟨.RCCharPtr val, X, Y, false⟩)

/-- `updateRecord`, of a number and of a string. -/
def updateRecord (v : Value) (vectorPos : ℤ) : Option (Config Content) :=
  let key : KeyIndex := ⟨block, name⟩
  match (h.equalRange c.hashRecord key).find? fun pos => covers pos.2 vectorPos with
  | some pos => do
    let r ← pos.2.set v
    return { c with hashRecord := updateFirst (fun e => e.1.eq key && covers e.2 vectorPos) r c.hashRecord }
  | none =>
    match v with
    | .double v => some (addRecordDouble env h c block name v)
    | .charPtr val => addVRecordCharPtr env h c block name val vectorPos vectorPos

/-- **A put.** The record that is found at the position has the value, and what is found for other keys and at other
positions is as before. -/
def Put (v : Value) (vectorPos : ℤ) : Prop :=
  ∃ c', updateRecord env h c block name v vectorPos = some c' ∧
    (∃ r, (getRecord h c' block name vectorPos).1 = some r ∧ r.val = v.content) ∧
    ∀ block' name' i, ¬((⟨block', name'⟩ : KeyIndex).eq ⟨block, name⟩ = true ∧ i = vectorPos) →
      (getRecord h c' block' name' i).1 = (getRecord h c block' name' i).1

/-- **Without errors**, one record at most covers a position of a key. -/
def ErrorFree : Prop :=
  ∀ block name i, (c.hashRecord.filter fun e => e.1.eq ⟨block, name⟩ && covers e.2 i).length ≤ 1

/-- The record that is written to is of the type of the value, and covers this position only, unless it has the
value. -/
def Rewritable (r : Record Content) (v : Value) : Prop :=
  (r.set v).isSome = true ∧ (r.vectorFirst = r.vectorLast ∨ r.val = v.content)

/-- What the environment leaves of a number. -/
def Environment.override (v : Double) : Double :=
  match env.getEnvVar block name with
  | some e => if isdigit e then env.atof e else v
  | none => v

/-- A record that is added gets the position and the value. -/
def Addable (vectorPos : ℤ) : Value → Prop
  | .double v => vectorPos = 0 ∧ env.override block name v = v
  | .charPtr _ => env.getEnvVar block name = none

/-- **The condition** of a put. -/
def Updatable (v : Value) (vectorPos : ℤ) : Prop :=
  (∃ e ∈ c.hashRecord, e.1.eq ⟨block, name⟩ = true ∧ covers e.2 vectorPos = true ∧ Rewritable e.2 v) ∨
    (¬∃ e ∈ c.hashRecord, e.1.eq ⟨block, name⟩ = true ∧ covers e.2 vectorPos = true) ∧
      Addable env block name vectorPos v

/-! ## At most one -/

section Unique

variable {α : Type*} {p : α → Bool} {l : List α} {x y : α}

theorem eq_of_length_filter_le (h1 : (l.filter p).length ≤ 1) (hx : x ∈ l) (hpx : p x = true) (hy : y ∈ l)
    (hpy : p y = true) : x = y := by
  have hx' := List.mem_filter.2 ⟨hx, hpx⟩
  have hy' := List.mem_filter.2 ⟨hy, hpy⟩
  rcases hf : l.filter p with _ | ⟨a, _ | ⟨b, m⟩⟩
  · rw [hf] at hx'
    cases hx'
  · rw [hf, List.mem_singleton] at hx' hy'
    rw [hx', hy']
  · rw [hf] at h1
    simp at h1

theorem find?_eq_some_of_unique (h1 : (l.filter p).length ≤ 1) (hx : x ∈ l) (hpx : p x = true) :
    l.find? p = some x := by
  obtain ⟨y, hy⟩ := Option.isSome_iff_exists.1 (List.find?_isSome.2 ⟨x, hx, hpx⟩)
  rw [hy, eq_of_length_filter_le h1 hx hpx (List.mem_of_find?_eq_some hy) (List.find?_some hy)]

end Unique

variable {env h c block name}
variable {v : Value} {vectorPos i : ℤ} {block' name' : CStr} {e : Entry Content} {r : Record Content} {w : Content}

/-- A configuration that is built without an error. -/
theorem errorFree_build {as : List (Add Content)} (hle : ∀ a ∈ as, a.record.vectorFirst ≤ a.record.vectorLast)
    (herr : (build h as).errorReading = false) : ErrorFree (build h as) := by
  intro block name i
  refine le_of_eq_of_le ?_ (length_filter_at_le ((errorReading_build h hle).1 herr) block name i)
  rw [((build_perm h as).filter _).length_eq, List.filter_map, List.length_map]
  refine congrArg List.length (List.filter_congr fun a _ => ?_)
  rw [Bool.eq_iff_iff, decide_eq_true_iff, Function.comp_apply, Bool.and_eq_true, KeyIndex.eq_iff]
  rw [covers, Bool.and_eq_true, and_assoc]
  exact and_congr_right fun _ => and_congr_right fun _ => and_congr decide_eq_true_iff decide_eq_true_iff

/-! ## Writing to a record -/

theorem Record.set_eq_some (hset : (r.set v).isSome = true) : r.set v = some { r with val := v.content } := by
  unfold Record.set at hset ⊢
  split at hset
  · rfl
  · rfl
  · cases hset

theorem updateFirst_eq_map {p : Entry Content → Bool} {l : List (Entry Content)} (h1 : (l.filter p).length ≤ 1)
    (he : e ∈ l) (hp : p e = true) (w : Content) :
    updateFirst p { e.2 with val := w } l = l.map fun x => if p x then (x.1, { x.2 with val := w }) else x := by
  induction l with
  | nil => rfl
  | cons x l ih =>
    rw [updateFirst, List.map_cons]
    by_cases hx : p x = true
    · rw [if_pos hx, if_pos hx, eq_of_length_filter_le h1 he hp List.mem_cons_self hx]
      have hrest : l.filter p = [] := by
        rw [List.filter_cons_of_pos hx, List.length_cons] at h1
        exact List.eq_nil_of_length_eq_zero (by omega)
      have hsame : (l.map fun x => if p x then (x.1, { x.2 with val := w }) else x) = l.map id :=
        List.map_congr_left fun y hy => if_neg (List.filter_eq_nil_iff.1 hrest y hy)
      rw [hsame, List.map_id]
    · rw [if_neg hx, if_neg hx, ih]
      · rwa [List.filter_cons_of_neg hx] at h1
      · rcases List.mem_cons.1 he with rfl | he
        · exact absurd hp hx
        · exact he

/-- **Written to.** What is found has the value if it is the record of the position. -/
theorem getRecord_update {c' : Config Content} (hfree : ErrorFree c) (he : e ∈ c.hashRecord)
    (hfit : (e.1.eq ⟨block, name⟩ && covers e.2 vectorPos) = true)
    (hc' : c'.hashRecord =
      updateFirst (fun e => e.1.eq ⟨block, name⟩ && covers e.2 vectorPos) { e.2 with val := w } c.hashRecord)
    (block' name' : CStr) (i : ℤ) :
    (getRecord h c' block' name' i).1 =
      (c.hashRecord.find? fun x => x.1.eq ⟨block', name'⟩ && covers x.2 i).map fun x =>
        if x.1.eq ⟨block, name⟩ && covers x.2 vectorPos then { x.2 with val := w, used := true } else x.2.setUsed := by
  rw [getRecord_find, hc', updateFirst_eq_map (hfree block name vectorPos) he hfit w, List.find?_map, Option.map_map]
  have hsame : ((fun e : Entry Content => e.1.eq ⟨block', name'⟩ && covers e.2 i) ∘ fun x : Entry Content =>
      if x.1.eq ⟨block, name⟩ && covers x.2 vectorPos then (x.1, { x.2 with val := w }) else x) =
      fun x => x.1.eq ⟨block', name'⟩ && covers x.2 i := by
    funext x
    rw [Function.comp_apply]
    split <;> rfl
  rw [hsame]
  congr 1
  funext x
  rw [Function.comp_apply]
  split <;> rfl

/-! ## Adding a record -/

section Insert

variable {p : Entry Content → Bool} {es : List (Entry Content)} {x : Entry Content}

theorem find?_insert_of_neg (h : HashMultimap Content) (h1 : (es.filter p).length ≤ 1) (hx : ¬p x = true) :
    (h.insert es x).find? p = es.find? p := by
  rw [find?_eq_of_perm (h.insert_perm es x).symm (by rwa [List.filter_cons_of_neg hx]), List.find?_cons_of_neg hx]

theorem find?_insert_of_pos (h : HashMultimap Content) (hnone : es.filter p = []) (hx : p x = true) :
    (h.insert es x).find? p = some x := by
  have h1 : ((x :: es).filter p).length ≤ 1 := by
    rw [List.filter_cons_of_pos hx, hnone]
    exact Nat.le_refl 1
  rw [find?_eq_of_perm (h.insert_perm es x).symm h1, List.find?_cons_of_pos hx]

end Insert

theorem getRecord_addRecord_of_not (hfree : ErrorFree c)
    (hout : ¬((⟨block, name⟩ : KeyIndex).eq ⟨block', name'⟩ = true ∧ covers r i = true)) :
    (getRecord h (addRecord h c block name r) block' name' i).1 = (getRecord h c block' name' i).1 := by
  rw [getRecord_find, getRecord_find]
  refine congrArg _ (find?_insert_of_neg h (hfree block' name' i) ?_)
  rw [Bool.and_eq_true]
  exact hout

theorem getRecord_addRecord_self
    (hnone : ¬∃ e ∈ c.hashRecord, e.1.eq ⟨block, name⟩ = true ∧ covers e.2 i = true) (hcov : covers r i = true) :
    (getRecord h (addRecord h c block name r) block name i).1 = some r.setUsed := by
  have hkey : (⟨block, name⟩ : KeyIndex).eq ⟨block, name⟩ = true := KeyIndex.eq_iff.2 ⟨rfl, rfl⟩
  have hrest : (c.hashRecord.filter fun e => e.1.eq ⟨block, name⟩ && covers e.2 i) = [] := by
    refine List.filter_eq_nil_iff.2 fun e he hfit => hnone ⟨e, he, ?_⟩
    rwa [Bool.and_eq_true] at hfit
  rw [getRecord_find]
  refine congrArg (Option.map _) (find?_insert_of_pos h hrest ?_)
  rw [hkey, hcov]
  rfl

/-- A record for one position: it is found there, and what is found elsewhere is as before. -/
theorem getRecord_addRecord (hfree : ErrorFree c)
    (hnone : ¬∃ e ∈ c.hashRecord, e.1.eq ⟨block, name⟩ = true ∧ covers e.2 i = true) (w : Content) :
    (getRecord h (addRecord h c block name ⟨w, i, i, false⟩) block name i).1 = some ⟨w, i, i, true⟩ ∧
      ∀ block' name' j, ¬((⟨block', name'⟩ : KeyIndex).eq ⟨block, name⟩ = true ∧ j = i) →
        (getRecord h (addRecord h c block name ⟨w, i, i, false⟩) block' name' j).1 =
          (getRecord h c block' name' j).1 := by
  have hcov : ∀ j, covers (⟨w, i, i, false⟩ : Record Content) j = true ↔ j = i := by
    intro j
    simp only [covers, Bool.and_eq_true, decide_eq_true_eq]
    omega
  refine ⟨getRecord_addRecord_self hnone ((hcov i).2 rfl), fun block' name' j hother => ?_⟩
  refine getRecord_addRecord_of_not hfree fun hfit => hother ⟨?_, (hcov j).1 hfit.2⟩
  obtain ⟨h1, h2⟩ := KeyIndex.eq_iff.1 hfit.1
  exact KeyIndex.eq_iff.2 ⟨h1.symm, h2.symm⟩

/-- A number is added at position 0, with the value that the environment leaves. -/
theorem addRecordDouble_eq (env : Environment) (h : HashMultimap Content) (c : Config Content) (block name : CStr)
    (v : Double) : ∃ c', c'.hashRecord = c.hashRecord ∧ addRecordDouble env h c block name v =
      addRecord h c' block name ⟨.RCDouble (env.override block name v), 0, 0, false⟩ := by
  rw [addRecordDouble, Environment.override]
  cases env.getEnvVar block name with
  | none => exact ⟨c, rfl, rfl⟩
  | some e =>
    dsimp only
    split
    · exact ⟨c, rfl, rfl⟩
    · exact ⟨{ c with errorReading := true }, rfl, rfl⟩

/-! ## The update -/

/-- The write leaves what is found elsewhere as it is exactly when there is nothing else to find, or no difference. -/
theorem getRecord_update_iff {c' : Config Content} (hfree : ErrorFree c) (he : e ∈ c.hashRecord)
    (hkey : e.1.eq ⟨block, name⟩ = true) (hcov : covers e.2 vectorPos = true)
    (hc' : c'.hashRecord =
      updateFirst (fun e => e.1.eq ⟨block, name⟩ && covers e.2 vectorPos) { e.2 with val := w } c.hashRecord) :
    (∀ block' name' i, ¬((⟨block', name'⟩ : KeyIndex).eq ⟨block, name⟩ = true ∧ i = vectorPos) →
      (getRecord h c' block' name' i).1 = (getRecord h c block' name' i).1) ↔
    e.2.vectorFirst = e.2.vectorLast ∨ e.2.val = w := by
  have hfit : (e.1.eq ⟨block, name⟩ && covers e.2 vectorPos) = true := by rw [hkey, hcov]; rfl
  have hrange : e.2.vectorFirst ≤ vectorPos ∧ vectorPos ≤ e.2.vectorLast := by
    simpa only [covers, Bool.and_eq_true, decide_eq_true_eq] using hcov
  constructor
  · intro hother
    by_contra hne
    obtain ⟨hlt, hval⟩ := not_or.1 hne
    -- the other end of the range, or the first if the position is inside
    obtain ⟨i, hi, hcov'⟩ : ∃ i, i ≠ vectorPos ∧ covers e.2 i = true := by
      by_cases hfirst : e.2.vectorFirst = vectorPos
      · refine ⟨e.2.vectorLast, by omega, ?_⟩
        simp only [covers, Bool.and_eq_true, decide_eq_true_eq]
        omega
      · refine ⟨e.2.vectorFirst, hfirst, ?_⟩
        simp only [covers, Bool.and_eq_true, decide_eq_true_eq]
        omega
    have hfound := hother block name i fun hsame => hi hsame.2
    rw [getRecord_update hfree he hfit hc', getRecord_find,
      find?_eq_some_of_unique (hfree block name i) he (by rw [hkey, hcov']; rfl)] at hfound
    simp only [Option.map_some, hfit, if_true, Option.some.injEq] at hfound
    exact hval (congrArg Record.val hfound).symm
  · intro hor block' name' i hother
    rw [getRecord_update hfree he hfit hc', getRecord_find]
    refine Option.map_congr fun x hx => ?_
    by_cases hxfit : (x.1.eq ⟨block, name⟩ && covers x.2 vectorPos) = true
    · have hxe : x = e :=
        eq_of_length_filter_le (hfree block name vectorPos) (List.mem_of_find?_eq_some hx) hxfit he hfit
      have hxq := List.find?_some hx
      rw [hxe, Bool.and_eq_true] at hxq
      rw [if_pos hxfit, hxe]
      rcases hor with hone | hval
      · exfalso
        refine hother ⟨?_, ?_⟩
        · obtain ⟨h1, h2⟩ := KeyIndex.eq_iff.1 hkey
          obtain ⟨h1', h2'⟩ := KeyIndex.eq_iff.1 hxq.1
          exact KeyIndex.eq_iff.2 ⟨h1'.symm.trans h1, h2'.symm.trans h2⟩
        · have hcov' := hxq.2
          simp only [covers, Bool.and_eq_true, decide_eq_true_eq] at hcov'
          omega
      · rw [← hval]
        rfl
    · rw [if_neg hxfit]

/-- **A record covers the position.** -/
theorem put_of_mem (hfree : ErrorFree c) (he : e ∈ c.hashRecord) (hkey : e.1.eq ⟨block, name⟩ = true)
    (hcov : covers e.2 vectorPos = true) : Put env h c block name v vectorPos ↔ Rewritable e.2 v := by
  have hfit : (e.1.eq ⟨block, name⟩ && covers e.2 vectorPos) = true := by rw [hkey, hcov]; rfl
  have hfind : (h.equalRange c.hashRecord ⟨block, name⟩).find? (fun pos => covers pos.2 vectorPos) = some e := by
    rw [find?_equalRange]
    exact find?_eq_some_of_unique (hfree block name vectorPos) he hfit
  unfold Put updateRecord
  simp only [hfind]
  cases hset : e.2.set v with
  | none =>
    refine iff_of_false ?_ fun hr => ?_
    · rintro ⟨c', hc', -⟩
      cases hc'
    · have hsome := hr.1
      rw [hset] at hsome
      cases hsome
  | some r =>
    have hr := Record.set_eq_some (r := e.2) (v := v) (by rw [hset]; rfl)
    rw [hset, Option.some.injEq] at hr
    subst hr
    have hrw : Rewritable e.2 v ↔ e.2.vectorFirst = e.2.vectorLast ∨ e.2.val = v.content := by
      rw [Rewritable, hset]
      exact and_iff_right rfl
    rw [hrw]
    constructor
    · rintro ⟨c', hc', -, hother⟩
      obtain rfl := Option.some.inj hc'
      exact (getRecord_update_iff hfree he hkey hcov rfl).1 hother
    · intro hor
      refine ⟨_, rfl, ⟨{ e.2 with val := v.content, used := true }, ?_, rfl⟩,
        (getRecord_update_iff hfree he hkey hcov rfl).2 hor⟩
      rw [getRecord_update hfree he hfit rfl, find?_eq_some_of_unique (hfree block name vectorPos) he hfit,
        Option.map_some, if_pos hfit]

/-- A record that is added has to get the position and the value. -/
theorem put_add_iff {c' : Config Content} {a : ℤ} {x : Content} (hfree : ErrorFree c)
    (hc' : c'.hashRecord = c.hashRecord)
    (hnone : ¬∃ e ∈ c.hashRecord, e.1.eq ⟨block, name⟩ = true ∧ covers e.2 vectorPos = true) :
    ((∃ r, (getRecord h (addRecord h c' block name ⟨w, a, a, false⟩) block name vectorPos).1 = some r ∧ r.val = x) ∧
      ∀ block' name' i, ¬((⟨block', name'⟩ : KeyIndex).eq ⟨block, name⟩ = true ∧ i = vectorPos) →
        (getRecord h (addRecord h c' block name ⟨w, a, a, false⟩) block' name' i).1 =
          (getRecord h c block' name' i).1) ↔
    vectorPos = a ∧ w = x := by
  have hsame : ∀ block name i, (getRecord h c' block name i).1 = (getRecord h c block name i).1 := by
    intro block name i
    rw [getRecord_find, getRecord_find, hc']
  have hfree' : ErrorFree c' := by
    rw [ErrorFree, hc']
    exact hfree
  by_cases hpos : vectorPos = a
  · subst hpos
    obtain ⟨hself, hother⟩ := getRecord_addRecord (h := h) hfree' (by rw [hc']; exact hnone) w
    rw [hself]
    constructor
    · rintro ⟨⟨r, hr, hval⟩, -⟩
      obtain rfl := Option.some.inj hr
      exact ⟨rfl, hval⟩
    · rintro ⟨-, hval⟩
      exact ⟨⟨_, rfl, hval⟩, fun block' name' i hi => (hother block' name' i hi).trans (hsame block' name' i)⟩
  · refine iff_of_false ?_ fun hand => hpos hand.1
    rintro ⟨⟨r, hr, -⟩, -⟩
    have hout : ¬covers (⟨w, a, a, false⟩ : Record Content) vectorPos = true := by
      simp only [covers, Bool.and_eq_true, decide_eq_true_eq]
      omega
    rw [getRecord_addRecord_of_not hfree' fun hfit => hout hfit.2, hsame, getRecord_find] at hr
    obtain ⟨e, he, -⟩ := Option.map_eq_some_iff.1 hr
    have hfit := List.find?_some he
    rw [Bool.and_eq_true] at hfit
    exact hnone ⟨e, List.mem_of_find?_eq_some he, hfit⟩

/-- **No record covers it.** -/
theorem put_of_not_mem (hfree : ErrorFree c)
    (hnone : ¬∃ e ∈ c.hashRecord, e.1.eq ⟨block, name⟩ = true ∧ covers e.2 vectorPos = true) :
    Put env h c block name v vectorPos ↔ Addable env block name vectorPos v := by
  have hfind : (h.equalRange c.hashRecord ⟨block, name⟩).find? (fun pos => covers pos.2 vectorPos) = none := by
    rw [find?_equalRange, List.find?_eq_none]
    intro e he hfit
    rw [Bool.and_eq_true] at hfit
    exact hnone ⟨e, he, hfit⟩
  unfold Put updateRecord
  simp only [hfind]
  cases v with
  | double d =>
    obtain ⟨c₀, hc₀, hadd⟩ := addRecordDouble_eq env h c block name d
    have hput := put_add_iff (h := h) (w := .RCDouble (env.override block name d)) (a := 0) (x := .RCDouble d) hfree hc₀
      hnone
    rw [Content.RCDouble.injEq] at hput
    rw [Addable, ← hput, ← hadd]
    constructor
    · rintro ⟨c', hc', hall⟩
      obtain rfl := Option.some.inj hc'
      exact hall
    · exact fun hall => ⟨_, rfl, hall⟩
  | charPtr val =>
    rw [Addable]
    unfold addVRecordCharPtr
    cases env.getEnvVar block name with
    | some e =>
      refine iff_of_false ?_ (by simp)
      rintro ⟨c', hc', -⟩
      cases hc'
    | none =>
      refine iff_of_true ⟨_, rfl, ?_⟩ rfl
      refine (put_add_iff (c := c) hfree ?_ hnone).2 ⟨rfl, rfl⟩
      rw [if_neg (lt_irrefl vectorPos)]

/-- **Configuration update.** It is a put exactly when the record that covers the position can be written to, or one
that is added gets the position and the value. -/
theorem updateRecord_put_iff (hfree : ErrorFree c) :
    Put env h c block name v vectorPos ↔ Updatable env c block name v vectorPos := by
  by_cases hmem : ∃ e ∈ c.hashRecord, e.1.eq ⟨block, name⟩ = true ∧ covers e.2 vectorPos = true
  · obtain ⟨e, he, hkey, hcov⟩ := hmem
    rw [put_of_mem hfree he hkey hcov]
    constructor
    · exact fun hr => .inl ⟨e, he, hkey, hcov, hr⟩
    · rintro (⟨e', he', hkey', hcov', hr⟩ | ⟨hnone, -⟩)
      · have heq : e = e' := eq_of_length_filter_le (hfree block name vectorPos) he (by rw [hkey, hcov]; rfl) he'
          (by rw [hkey', hcov']; rfl)
        rw [heq]
        exact hr
      · exact absurd ⟨e, he, hkey, hcov⟩ hnone
  · rw [put_of_not_mem hfree hmem]
    constructor
    · exact fun ha => .inr ⟨hmem, ha⟩
    · rintro (⟨e, he, hkey, hcov, -⟩ | ⟨-, ha⟩)
      · exact absurd ⟨e, he, hkey, hcov⟩ hmem
      · exact ha

/-- No environment variable is set. -/
def noVariables : Environment := ⟨fun _ _ => none, fun _ => 0⟩

theorem letter_ne_zero : (97 : BitVec 8) ≠ 0 := by
  decide

/-- A record with a name of one letter. -/
def letter : CStr := [⟨97, letter_ne_zero⟩]

theorem errorFree_empty : ErrorFree .empty := fun _ _ _ => Nat.zero_le 1

/-- A number at position 0 of a new key. -/
theorem updateRecord_put_new : Put noVariables .chained .empty [] letter (.double 1) 0 :=
  (updateRecord_put_iff errorFree_empty).2 (.inr ⟨by simp [Config.empty], rfl, rfl⟩)

/-- A number of three positions. -/
def ranged : List (Add Content) := [⟨[], letter, ⟨.RCDouble 1, 0, 2, false⟩⟩]

theorem ranged_hashRecord : (build HashMultimap.chained ranged).hashRecord =
    [(⟨[], letter⟩, ⟨.RCDouble 1, 0, 2, false⟩)] := rfl

/-- **Two updates that are no puts**: a new number at position 1 is added at position 0, and a number for three
positions is changed for all of them. -/
theorem not_put : ¬Put noVariables .chained .empty [] letter (.double 1) 1 ∧
    ¬Put noVariables .chained (build HashMultimap.chained ranged) [] letter (.double 5) 1 := by
  constructor
  · rw [put_of_not_mem errorFree_empty (by simp [Config.empty])]
    rintro ⟨hpos, -⟩
    cases hpos
  · have hfree : ErrorFree (build HashMultimap.chained ranged) := errorFree_build (by decide) rfl
    rw [put_of_mem hfree (by rw [ranged_hashRecord]; exact List.mem_cons_self) rfl rfl]
    rintro ⟨-, hrange | hval⟩
    · cases hrange
    · cases hval

end Esesc.Suc.Conf
