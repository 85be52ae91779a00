import ZTask.Sproto.Texts

/-!
# Encoding in a buffer

`sproto_encode` does what the draft of a table lays down (`EncodesTables`): in a buffer with room
enough it writes the text, or raises the error, and in a smaller one it returns -1. Only where a
draft is not steady may it leave the buffer. Each function that it calls is followed in the same
way, up to the callback and back.
-/

namespace ZTask

open Lib

variable {n : ℕ} {σ : Type} {conv : LuaConversion} {types : Fin n → SprotoType n}
    {f : SprotoField n}
  {block block' : Lib.Block UInt8} {off : ℕ} {xs ys : List UInt8} {size : ℕ}

/-! ## Buffers -/

/-- The bytes stand at the offset, and what stands in front of it stays there. -/
structure Filled (block : Lib.Block UInt8) (off : ℕ) (block' : Lib.Block UInt8) (xs : List UInt8) :
    Prop where
  keeps : block.KeepsFront block' off
  stands : block'.At off xs

theorem Filled.nil (block : Lib.Block UInt8) (off : ℕ) : Filled block off block [] :=
  ⟨.refl block off, Lib.Block.at_nil block off⟩

theorem Filled.length (h : Filled block off block' xs) : block'.length = block.length := h.keeps.1

theorem Filled.append {block'' : Lib.Block UInt8} (h : Filled block off block' xs)
    (h' : Filled block' (off + xs.length) block'' ys) : Filled block off block'' (xs ++ ys) :=
  ⟨h.keeps.trans h'.keeps (Nat.le_add_right _ _),
    (h'.keeps.2 h.stands (Nat.le_refl _)).append h'.stands⟩

theorem fillBytes_filled (hfits : off + xs.length ≤ block.length) :
    ∃ block', fillBytes block off xs = .ok block' ∧ Filled block off block' xs := by
  obtain ⟨block', hwrite⟩ := Lib.Block.write?_eq_some hfits
  refine ⟨block', ?_, .of_write? hwrite (Nat.le_refl _), .of_write? hwrite⟩
  rw [fillBytes, hwrite]

theorem fillBytes_split (h : fillBytes block off (xs ++ ys) = .ok block') :
    ∃ block₁, fillBytes block off xs = .ok block₁ ∧
      fillBytes block₁ (off + xs.length) ys = .ok block' := by
  rw [← fillBytes_append] at h
  cases hfirst : fillBytes block off xs with
  | error e =>
    rw [hfirst] at h
    cases h
  | ok block₁ =>
    rw [hfirst] at h
    exact ⟨block₁, rfl, h⟩

theorem fetchBytes_eq (h : block.At off xs) {len : ℕ} (hlen : len = xs.length) :
    fetchBytes block off len = .ok xs := by
  rw [fetchBytes, hlen, h.read?_drop]

theorem asSizeT_natCast {k : ℕ} (h : k < 2 ^ 64) : asSizeT k = k := by
  rw [asSizeT]
  omega

theorem asSizeT_neg {i : ℤ} (hneg : i < 0) (hmin : -2 ^ 32 < i) : 2 ^ 63 ≤ asSizeT i := by
  rw [asSizeT]
  omega

/-- A buffer of `lencode`. -/
structure Roomy (block : Lib.Block UInt8) (off size : ℕ) : Prop where
  fits : off + size = block.length
  small : block.length ≤ encodeMaxsize

theorem Roomy.lt (h : Roomy block off size) : size < 2 ^ 31 := by
  have hfits := h.fits
  have hsmall := h.small
  rw [encodeMaxsize] at hsmall
  omega

theorem Roomy.drop (h : Roomy block off size) {k : ℕ} (hlen : block'.length = block.length)
    (hk : k ≤ size) : Roomy block' (off + k) (size - k) where
  fits := by
    have hfits := h.fits
    omega
  small := hlen ▸ h.small

/-! ## Numbers and lengths -/

/-- What a function that writes returns. -/
def Wrote (block : Lib.Block UInt8) (off : ℕ) (r : Lib.Block UInt8 × ℕ) (xs : List UInt8) : Prop :=
  Filled block off r.1 xs ∧ r.2 = xs.length

theorem Filled.front (h : Filled block (off + ys.length) block' xs)
    (hfits : off + ys.length ≤ block.length) :
    ∃ block'', fillBytes block' off ys = .ok block'' ∧ Filled block off block'' (ys ++ xs) := by
  obtain ⟨block'', hwrite⟩ := @Lib.Block.write?_eq_some _ block' off ys
      (by rw [h.length]; exact hfits)
  refine ⟨block'', by rw [fillBytes, hwrite], (h.keeps.mono (Nat.le_add_right _ _)).trans
    (.of_write? hwrite (Nat.le_refl _)) (Nat.le_refl _), ?_⟩
  have hfront : block''.At off ys := .of_write? hwrite
  exact hfront.append (h.stands.write? hwrite (.inr (Nat.le_refl _)))

theorem fillSize_eq (h : Filled block (off + 4) block' xs) (hfits : off + 4 ≤ block.length) :
    ∃ block'', fillSize block' off xs.length = .ok (block'', (toLittle 4 xs.length ++ xs).length) ∧
      Filled block off block'' (toLittle 4 xs.length ++ xs) := by
  have hlen := length_toLittle 4 xs.length
  obtain ⟨block'', hfill, hfilled⟩ := @Filled.front _ _ _ _ (toLittle 4 xs.length)
    (by rw [hlen]; exact h) (by rw [hlen]; exact hfits)
  refine ⟨block'', ?_, hfilled⟩
  rw [fillSize, hfill, List.length_append, hlen, Nat.add_comm 4]
  rfl

theorem encodeNumber_comes (h : Roomy block off size) {w : ℕ} (hw : w ≤ 8) (v : ℕ) :
    (Draft.text (toLittle 4 w ++ toLittle w v)).Comes sprotoExits size (Wrote block off)
      (encodeNumber w v block off size) := by
  have hroom : (Draft.text (ε := SprotoMessage) (toLittle 4 w ++ toLittle w v)).room = 4 + w := by
    show (_ ++ _ : List UInt8).length = _
    rw [List.length_append, length_toLittle, length_toLittle]
  have hlt := h.lt
  have hfits := h.fits
  rw [encodeNumber, asSizeT_natCast (by omega)]
  by_cases hsize : size < 4 + w
  · rw [if_pos hsize]
    exact .noRoom (by omega)
  · rw [if_neg hsize]
    obtain ⟨block₁, hfill, hfilled⟩ := @fillBytes_filled block (off + 4) (toLittle w v)
      (by rw [length_toLittle]; omega)
    obtain ⟨block₂, hsize', hfilled'⟩ := fillSize_eq hfilled (by omega)
    rw [length_toLittle] at hsize' hfilled'
    rw [hfill, Sproto.ok_bind, hsize']
    exact .wrote (by omega) rfl ⟨hfilled', rfl⟩

/-! ## What the callback answers -/

/-- What the callback returns for a value: its size, and the value in the buffer. -/
def Answered (self : EncodeUd) (block : Lib.Block UInt8) (off : ℕ)
    (r : EncodeAnswer × EncodeUd × Lib.Block UInt8) (xs : List UInt8) : Prop :=
  r.1 = .size xs.length 0 ∧ r.2.1 = self ∧ Filled block off r.2.2 xs

/-- What `sproto_encode` returns for a table: the size, and the text in the buffer. -/
def Returned {σ : Type} (block : Lib.Block UInt8) (off : ℕ) (r : ℕ × σ × Lib.Block UInt8)
    (xs : List UInt8) :
    Prop :=
  r.1 = xs.length ∧ Filled block off r.2.2 xs

/-- `sproto_encode` with the callback does what is laid down for tables. -/
def EncodesTables (types : Fin n → SprotoType n) (cb : EncodeCallback n EncodeUd)
    (sub : Fin n → LuaPairs → SprotoDraft) : Prop :=
  ∀ st table block off size, Roomy block off size →
    (sub st table).Comes sprotoExits size (Returned block off)
      (sprotoEncode cb (types st) block off size (.start table))

theorem encodeValue_item {cb : EncodeCallback n EncodeUd} {sub : Fin n → LuaPairs → SprotoDraft}
    (hcb : EncodesTables types cb sub) (hkind : f.kind ≠ .integer ∧ f.kind ≠ .boolean)
    (h : Roomy block off size) (index : ℕ) (v : LuaObject) (self : EncodeUd) :
    (itemDraft conv sub f index v).Comes sprotoExits size (Answered self block off)
      (encodeValue conv cb types ⟨f, index, off, size⟩ v self block) := by
  have hlt := h.lt
  have hfits := h.fits
  unfold itemDraft encodeValue
  dsimp only
  cases hk : f.kind with
  | integer => exact absurd hk hkind.1
  | boolean => exact absurd hk hkind.2
  | string =>
    dsimp only
    cases htext : conv.tolstring v with
    | none => exact .raised (Nat.zero_le _) rfl
    | some bytes =>
      dsimp only
      rw [asSizeT_natCast (by omega)]
      by_cases hsize : size < bytes.length
      · rw [if_pos hsize]
        exact .noRoom hsize
      · rw [if_neg hsize]
        obtain ⟨block', hfill, hfilled⟩ := @fillBytes_filled block off bytes (by omega)
        rw [hfill]
        exact .wrote (by show bytes.length ≤ size; omega) rfl ⟨rfl, rfl, hfilled⟩
  | struct st =>
    dsimp only
    cases v with
    | scalar s => exact .raised (Nat.zero_le _) rfl
    | table pairs rawlen metapairs =>
      refine (hcb st pairs block off size h).map fun r xs _ _ hpost ↦ ?_
      exact ⟨(.size r.1 0, self, r.2.2), rfl,
        congrArg (EncodeAnswer.size · 0) hpost.1, rfl, hpost.2⟩

theorem encode_value {left : ℕ} {arg : EncodeArg n} {self self' : EncodeUd} {v : LuaObject}
    (hfetch : self.fetch arg = .ok (some v, self')) (hnil : v.isNil = false) :
    encode conv types (left + 1) arg self block =
      encodeValue conv (encode conv types left) types arg v self' block := by
  rw [encode, hfetch, Sproto.ok_bind]
  dsimp only
  rw [hnil, if_neg Bool.false_ne_true]

theorem encode_nil {left : ℕ} {arg : EncodeArg n} {self self' : EncodeUd} {v : LuaObject}
    (hfetch : self.fetch arg = .ok (some v, self')) (hnil : v.isNil = true) :
    encode conv types (left + 1) arg self block = .ok (.nil, self', block) := by
  rw [encode, hfetch, Sproto.ok_bind]
  dsimp only
  rw [hnil, if_pos rfl]
  rfl

theorem encodeValue_integer {cb : EncodeCallback n EncodeUd} (hkind : f.kind = .integer)
    (index value : ℕ) (length : ℤ) (v : LuaObject) (self : EncodeUd) :
    encodeValue conv cb types ⟨f, index, value, length⟩ v self block =
      (conv.tointegerx v).elim (isNot "an integer" ⟨f, index, value, length⟩ v)
        fun i ↦ .ok (integerAnswer i, self, block) := by
  unfold encodeValue
  dsimp only
  rw [hkind]
  cases conv.tointegerx v <;> rfl

/-! ## Elements of arrays -/

/-- What `encode` starts a field with: no map is being gone through, and the array that was entered
last is another one. -/
structure FieldReady (table : LuaPairs) (f : SprotoField n) (ud : EncodeUd) : Prop where
  table : ud.table = table
  iter : ud.iter = 0
  other : ∀ tag, ud.arrayTag = some tag → tag < f.tag

/-- An array has been entered, and `i` elements of it have been fetched. -/
def EncodeUd.entered (self : EncodeUd) (f : SprotoField n) (pairs : LuaPairs) (i : ℕ) : EncodeUd :=
  { self with arrayTag := some f.tag, array := pairs, iter := if f.key.isSome then i else 0 }

/-- Before the `i`-th element is fetched. -/
def EncodeUd.before (self : EncodeUd) (f : SprotoField n) (pairs : LuaPairs) : ℕ → EncodeUd
  | 0 => self
  | i + 1 => self.entered f pairs (i + 1)

variable {self : EncodeUd} {table pairs : LuaPairs} {rawlen i : ℕ} {metapairs : Option LuaPairs}

/-- The array is entered once. -/
theorem enter_before (h : FieldReady table f self)
    (hget : getfield table f.name = .table pairs rawlen metapairs) (arg : EncodeArg n)
    (harg : arg.field = f) (i : ℕ) :
    (self.before f pairs i).enter arg = .ok (true, self.entered f pairs i) := by
  rw [EncodeUd.enter, harg]
  dsimp only
  cases i with
  | zero =>
    -- the array that was entered last is another one
    have hother : self.arrayTag ≠ some f.tag := fun heq ↦ Nat.lt_irrefl _ (h.other _ heq)
    have hget' : getfield self.table f.name = .table pairs rawlen metapairs := by rw [h.table, hget]
    rw [EncodeUd.before, if_neg hother, hget', EncodeUd.entered, ite_self, ← h.iter]
  | succ i =>
    rw [EncodeUd.before, EncodeUd.entered, if_pos rfl]

private theorem isNil_valuesOf {v : LuaObject} (hv : v ∈ valuesOf pairs) : v.isNil = false := by
  have h := (List.mem_filter.mp hv).2
  rwa [Bool.not_eq_true'] at h

private theorem itemsFrom_spec (pairs : LuaPairs) (fuel i k : ℕ) :
    (∀ v, (itemsFrom pairs fuel i)[k]? = some v → rawgeti pairs (i + k) = v ∧ v.isNil = false) ∧
      ((itemsFrom pairs fuel i).length < fuel → k = (itemsFrom pairs fuel i).length →
        (rawgeti pairs (i + k)).isNil = true) := by
  induction fuel generalizing i k with
  | zero => exact ⟨fun v h ↦ (by cases h), fun h ↦ absurd h (Nat.not_lt_zero _)⟩
  | succ fuel ih =>
    rw [itemsFrom]
    split
    next hnil =>
      refine ⟨fun v h ↦ (by cases h), fun _ hk ↦ ?_⟩
      rw [hk]
      exact hnil
    next hsome =>
      cases k with
      | zero =>
        refine ⟨fun v h ↦ ?_, fun _ hk ↦ ?_⟩
        · cases h
          exact ⟨rfl, Bool.of_not_eq_true hsome⟩
        · rw [List.length_cons] at hk
          omega
      | succ k =>
        obtain ⟨hat, hend⟩ := ih (i + 1) k
        rw [show i + (k + 1) = i + 1 + k by omega]
        refine ⟨fun v h ↦ hat v h, fun hlen hk ↦ ?_⟩
        rw [List.length_cons] at hlen hk
        exact hend (by omega) (by omega)

/-- The next element is fetched. -/
theorem fetch_item (h : FieldReady table f self)
    (hget : getfield table f.name = .table pairs rawlen metapairs) {v : LuaObject}
    (hitem : (arrayItems f pairs)[i]? = some v) (value : ℕ) (length : ℤ) :
    (self.before f pairs i).fetch ⟨f, i + 1, value, length⟩ =
    .ok (some v, self.before f pairs (i + 1)) ∧
      v.isNil = false := by
  rw [EncodeUd.fetch, if_pos (Nat.succ_pos i), enter_before h hget _ rfl i, Sproto.ok_bind]
  dsimp only
  rw [if_pos rfl, EncodeUd.element, EncodeUd.before]
  rw [arrayItems] at hitem
  cases hkey : f.key.isSome with
  | true =>
    -- a map is gone through, whatever its keys are
    rw [hkey] at hitem
    have hiter : (self.entered f pairs i).iter = i := by rw [EncodeUd.entered, hkey]; rfl
    have hstep : { self.entered f pairs i with iter := i + 1 } = self.entered f pairs (i + 1) := by
      rw [EncodeUd.entered, EncodeUd.entered, hkey]
      rfl
    have hvalues : (valuesOf (self.entered f pairs i).array)[i]? = some v := hitem
    rw [if_pos rfl, hiter, hvalues]
    dsimp only
    rw [hstep]
    exact ⟨rfl, isNil_valuesOf (List.mem_of_getElem? hvalues)⟩
  | false =>
    rw [hkey] at hitem
    have hstep : self.entered f pairs i = self.entered f pairs (i + 1) := by
      rw [EncodeUd.entered, EncodeUd.entered, hkey]
      rfl
    obtain ⟨hraw, hnil⟩ := (itemsFrom_spec pairs encodeMaxsize 1 i).1 v hitem
    have harray : rawgeti (self.entered f pairs i).array (i + 1) = v := by
      rw [Nat.add_comm i]
      exact hraw
    rw [if_neg Bool.false_ne_true]
    dsimp only
    rw [harray, hstep]
    exact ⟨rfl, hnil⟩

/-- Nothing is fetched behind the last element, and the map is left. -/
theorem fetch_end (h : FieldReady table f self)
    (hget : getfield table f.name = .table pairs rawlen metapairs)
    (hlen : (arrayItems f pairs).length = i) (hmax : i < encodeMaxsize) (value : ℕ) (length : ℤ) :
    ∃ v, (self.before f pairs i).fetch ⟨f, i + 1, value, length⟩ =
      .ok (some v, self.entered f pairs 0) ∧
      v.isNil = true := by
  rw [EncodeUd.fetch, if_pos (Nat.succ_pos i), enter_before h hget _ rfl i, Sproto.ok_bind]
  dsimp only
  rw [if_pos rfl, EncodeUd.element]
  rw [arrayItems] at hlen
  cases hkey : f.key.isSome with
  | true =>
    rw [hkey] at hlen
    have hiter : (self.entered f pairs i).iter = i := by rw [EncodeUd.entered, hkey]; rfl
    have hstep : { self.entered f pairs i with iter := 0 } = self.entered f pairs 0 := by
      rw [EncodeUd.entered, EncodeUd.entered, hkey]
      rfl
    have hvalues : (valuesOf (self.entered f pairs i).array)[i]? = none :=
      List.getElem?_eq_none (Nat.le_of_eq hlen)
    rw [if_pos rfl, hiter, hvalues]
    dsimp only
    rw [hstep]
    exact ⟨_, rfl, rfl⟩
  | false =>
    rw [hkey] at hlen
    have hlen' : (itemsFrom pairs encodeMaxsize 1).length = i := hlen
    have hstep : self.entered f pairs i = self.entered f pairs 0 := by
      rw [EncodeUd.entered, EncodeUd.entered, hkey]
      rfl
    have hnil := (itemsFrom_spec pairs encodeMaxsize 1 i).2 (by omega) hlen'.symm
    rw [if_neg Bool.false_ne_true]
    dsimp only
    rw [hstep]
    rw [Nat.add_comm 1] at hnil
    exact ⟨_, rfl, hnil⟩

end ZTask
