import ZTask.Sproto.Integers

/-!
# Arrays

`encode_array` writes the elements behind their length. It stops at the first nil, and where there
is no array it writes nothing.

## Three loops

Integers, booleans, and strings or structs have a loop each. All of them ask the callback for one
element after the other and stop when it has none; `ArrayDone` is what is said of each of them. That
there is no array is found out when the callback is called first, so nothing has been written then.
-/

namespace ZTask

open Lib

variable {n : ℕ} {conv : LuaConversion} {types : Fin n → SprotoType n} {f : SprotoField n}
  {block block' : Lib.Block UInt8} {off size i fuel left rawlen : ℕ} {table pairs : LuaPairs}
  {metapairs : Option LuaPairs} {self ud : EncodeUd} {cb : EncodeCallback n EncodeUd}

/-! ## Booleans -/

/-- What the callback answers for an integer or a boolean. -/
theorem encodeValue_scalar (hkind : f.kind = .integer ∨ f.kind = .boolean)
    (index value : ℕ) (length : ℤ) (v : LuaObject) (self : EncodeUd) :
    encodeValue conv cb types ⟨f, index, value, length⟩ v self block =
      ((scalarAnswer conv f index v).map (·, self, block)).mapError .raised := by
  unfold encodeValue scalarAnswer
  dsimp only
  rcases hkind with hkind | hkind
  · rw [hkind]
    dsimp only
    cases conv.tointegerx v <;> rfl
  · rw [hkind]
    cases v with
    | scalar s => cases s <;> rfl
    | table _ _ _ => rfl

theorem encodeValue_ok (hkind : f.kind = .integer ∨ f.kind = .boolean) {index : ℕ} {v : LuaObject}
    {a : EncodeAnswer} (h : scalarAnswer conv f index v = .ok a) (value : ℕ) (length : ℤ)
    (self : EncodeUd) :
    encodeValue conv cb types ⟨f, index, value, length⟩ v self block = .ok (a, self, block) := by
  rw [encodeValue_scalar hkind, h]
  rfl

theorem encodeValue_error (hkind : f.kind = .integer ∨ f.kind = .boolean) {index : ℕ}
    {v : LuaObject}
    {e : SprotoMessage} (h : scalarAnswer conv f index v = .error e) (value : ℕ) (length : ℤ)
    (self : EncodeUd) :
    encodeValue conv cb types ⟨f, index, value, length⟩ v self block = .error (.raised e) := by
  rw [encodeValue_scalar hkind, h]
  rfl

private theorem booleanDraft_cases (hkind : f.kind = .boolean) (index : ℕ) (v : LuaObject) :
    (∃ b : Bool, scalarAnswer conv f index v = .ok (.size 4 (if b then 1 else 0)) ∧
      booleanDraft f index v = .text [if b then 1 else 0]) ∨
    ∃ e, scalarAnswer conv f index v = .error e ∧ booleanDraft f index v = .raise e := by
  unfold scalarAnswer
  rw [hkind]
  rcases v with s | _
  · -- only a boolean is written
    cases s with
    | boolean b => exact .inl ⟨b, rfl, rfl⟩
    | _ => exact .inr ⟨_, rfl, rfl⟩
  · exact .inr ⟨_, rfl, rfl⟩

/-- What the loops over the elements come to: where the array ends, and it has been left. -/
def ArrayDone (block : Lib.Block UInt8) (off : ℕ) (ud : EncodeUd)
    (r : Option ℕ × EncodeUd × Lib.Block UInt8) (xs : List UInt8) : Prop :=
  r.1 = some (off + xs.length) ∧ r.2.1 = ud ∧ Filled block off r.2.2 xs

theorem ArrayDone.append {xs ys : List UInt8} {r : Option ℕ × EncodeUd × Lib.Block UInt8}
    (hfirst : Filled block off block' xs) (h : ArrayDone block' (off + xs.length) ud r ys) :
    ArrayDone block off ud r (xs ++ ys) := by
  obtain ⟨hend, hud, hfilled⟩ := h
  refine ⟨?_, hud, hfirst.append hfilled⟩
  rw [hend, List.length_append, Nat.add_assoc]

theorem arrayItems_getElem? {front vs : List LuaObject} {v : LuaObject}
    (hitems : arrayItems f pairs = front ++ v :: vs) (hfront : front.length = i) :
    (arrayItems f pairs)[i]? = some v := by
  rw [hitems, ← hfront, List.getElem?_append_right (Nat.le_refl _), Nat.sub_self]
  rfl

/-- **The loop over booleans.** -/
theorem booleanArrayLoop_comes (h : FieldReady table f self)
    (hget : getfield table f.name = .table pairs rawlen metapairs) (hkind : f.kind = .boolean)
    (hroomy : Roomy block off size) {front vs : List LuaObject}
    (hitems : arrayItems f pairs = front ++ vs)
    (hfront : front.length = i) (hfuel : size < fuel) (hmax : i + size < encodeMaxsize) :
    (itemsDraft (booleanDraft f) (.text []) (i + 1) vs).Comes sprotoExits size
      (ArrayDone block off (self.entered f pairs 0))
      (booleanArrayLoop (encode conv types (left + 1)) ⟨f, 0, 0, 0⟩ fuel
        ⟨i + 1, block, off, size, self.before f pairs i⟩) := by
  have hfit := hroomy.fits
  induction vs generalizing front i fuel block off size with
  | nil =>
    obtain ⟨fuel, rfl⟩ : ∃ k, fuel = k + 1 := ⟨fuel - 1, by omega⟩
    have hlen : (arrayItems f pairs).length = i := by rw [hitems, List.append_nil, hfront]
    obtain ⟨v, hfetch, hnil⟩ := fetch_end h hget hlen (by omega) 0 4
    rw [booleanArrayLoop]
    dsimp only
    rw [encode_nil hfetch hnil, Sproto.ok_bind]
    exact .wrote (Nat.zero_le _) rfl ⟨rfl, rfl, .nil block off⟩
  | cons v vs ih =>
    obtain ⟨fuel, rfl⟩ : ∃ k, fuel = k + 1 := ⟨fuel - 1, by omega⟩
    obtain ⟨hfetch, hnil⟩ := fetch_item h hget (arrayItems_getElem? hitems hfront) 0 4
    rw [booleanArrayLoop, itemsDraft]
    dsimp only
    rw [encode_value hfetch hnil]
    rcases @booleanDraft_cases _ conv _ hkind (i + 1) v with ⟨b, hanswer, hdraft⟩ | ⟨e,
        hanswer, hdraft⟩
    · rw [encodeValue_ok (.inr hkind) hanswer, hdraft, Sproto.ok_bind]
      dsimp only
      by_cases hsize : (size : ℤ) < 1
      · rw [if_pos hsize]
        refine .noRoom (Nat.lt_of_lt_of_le ?_ (Draft.le_append_room _ _))
        show size < 1
        omega
      · rw [if_neg hsize]
        obtain ⟨block', hfill, hfilled⟩ := @fillBytes_filled block off [if b then 1 else 0]
          (by rw [List.length_singleton]; omega)
        have hbyte : [if (if b then 1 else 0) = 0 then 0 else 1] =
            ([if b then 1 else 0] : List UInt8) := by
          cases b <;> rfl
        rw [hbyte, hfill, Sproto.ok_bind, show (size : ℤ) - 1 = (size - 1 : ℕ) by omega]
        have hroomy' : Roomy block' (off + 1) (size - 1) := hroomy.drop hfilled.length (by omega)
        have hitems' : arrayItems f pairs = (front ++ [v]) ++ vs := by
          rw [hitems, List.append_assoc]; rfl
        have hfront' : (front ++ [v]).length = i + 1 := by rw [List.length_append, hfront]; rfl
        have hrest := ih hroomy' hitems' hfront'
            (Nat.lt_of_lt_of_le (by omega) (Nat.le_refl fuel)) (by omega)
          hroomy'.fits
        refine .behind (by show 1 ≤ size; omega) rfl ?_
        exact hrest.mono fun r ys _ _ hdone ↦ hdone.append hfilled
    · rw [encodeValue_error (.inr hkind) hanswer, hdraft]
      exact .raised (Nat.zero_le _) (Draft.append_out_error rfl)

/-! ## Strings and structs -/

/-- **The loop over strings and structs.** -/
theorem objectArrayLoop_comes (h : FieldReady table f self)
    (hget : getfield table f.name = .table pairs rawlen metapairs)
    (hkind : f.kind ≠ .integer ∧ f.kind ≠ .boolean) {sub : Fin n → LuaPairs → SprotoDraft}
    (hcb : EncodesTables types (encode conv types left) sub)
    (hroomy : Roomy block off size) {front vs : List LuaObject}
    (hitems : arrayItems f pairs = front ++ vs)
    (hfront : front.length = i) (hfuel : size < fuel) (hmax : i + size < encodeMaxsize) :
    (itemsDraft (fun i v ↦ withLength (itemDraft conv sub f i v))
    ((Draft.text []).atLeast 4) (i + 1)
      vs).Comes sprotoExits size (ArrayDone block off (self.entered f pairs 0))
      (objectArrayLoop (encode conv types (left + 1)) ⟨f, 0, 0, 0⟩ fuel
        ⟨i + 1, block, off, size, self.before f pairs i⟩) := by
  have hfit := hroomy.fits
  induction vs generalizing front i fuel block off size with
  | nil =>
    obtain ⟨fuel, rfl⟩ : ∃ k, fuel = k + 1 := ⟨fuel - 1, by omega⟩
    have hlen : (arrayItems f pairs).length = i := by rw [hitems, List.append_nil, hfront]
    obtain ⟨v, hfetch, hnil⟩ := fetch_end h hget hlen (by omega) (off + 4) (size - 4)
    rw [objectArrayLoop]
    dsimp only
    by_cases hsize : (size : ℤ) < 4
    · rw [if_pos hsize]
      exact .noRoom (by show size < 4; omega)
    · rw [if_neg hsize, encode_nil hfetch hnil, Sproto.ok_bind]
      exact .wrote (by show 4 ≤ size; omega) rfl ⟨rfl, rfl, .nil block off⟩
  | cons v vs ih =>
    obtain ⟨fuel, rfl⟩ : ∃ k, fuel = k + 1 := ⟨fuel - 1, by omega⟩
    rw [objectArrayLoop, itemsDraft]
    dsimp only
    by_cases hsize : (size : ℤ) < 4
    · rw [if_pos hsize]
      refine .noRoom (Nat.lt_of_lt_of_le ?_ (Draft.le_append_room _ _))
      show size < 4 + _
      omega
    · rw [if_neg hsize, show (size : ℤ) - 4 = (size - 4 : ℕ) by omega]
      obtain ⟨hfetch, hnil⟩ :=
        fetch_item h hget (arrayItems_getElem? hitems hfront) (off + 4) (size - 4 : ℕ)
      rw [encode_value hfetch hnil]
      have hitem := @encodeValue_item _ conv types _ block (off + 4) (size - 4) _ _ hcb hkind
        (hroomy.drop rfl (by omega)) (i + 1) v (self.before f pairs (i + 1))
      refine .framedBind (by omega) hitem fun r xs _ hxs hpost ↦ ?_
      obtain ⟨answer, ud, block₁⟩ := r
      obtain ⟨rfl, rfl, hfilled⟩ : answer = _ ∧ ud = _ ∧ Filled block (off + 4) block₁ xs := hpost
      obtain ⟨block', hfill, hfilled'⟩ := fillSize_eq hfilled (by omega)
      have hlen : (toLittle 4 xs.length ++ xs).length = 4 + xs.length := by
        rw [List.length_append, length_toLittle]
      dsimp only
      rw [hfill, Sproto.ok_bind]
      dsimp only
      rw [hlen, show ((size - 4 : ℕ) : ℤ) - xs.length = (size - (4 + xs.length) : ℕ) by omega,
        Nat.add_assoc off]
      -- the rest stands behind the length and the element
      have hroomy' : Roomy block' (off + (4 + xs.length)) (size - (4 + xs.length)) :=
        hroomy.drop hfilled'.length (by omega)
      have hitems' : arrayItems f pairs = (front ++ [v]) ++ vs := by
        rw [hitems, List.append_assoc]; rfl
      have hfront' : (front ++ [v]).length = i + 1 := by rw [List.length_append, hfront]; rfl
      have hrest := ih hroomy' hitems' hfront'
          (Nat.lt_of_lt_of_le (by omega) (Nat.le_refl fuel)) (by omega)
        hroomy'.fits
      exact hrest.mono fun r ys _ _ hdone ↦ .append hfilled' (by rw [hlen]; exact hdone)

/-! ## The whole array -/

theorem encodeIntegerArray_comes (h : FieldReady table f self)
    (hget : getfield table f.name = .table pairs rawlen metapairs) (hkind : f.kind = .integer)
    (hroomy : Roomy block off size) :
    (integersDraft conv f [] (arrayItems f pairs)).Comes sprotoExits size
      (ArrayDone block off (self.entered f pairs 0))
      (encodeIntegerArray (encode conv types (left + 1)) ⟨f, 0, 0, 0⟩ self block off size) := by
  have hfit := hroomy.fits
  have hleast := integersRoom_le_draft conv f [] (arrayItems f pairs)
  have hone : integersRoom [] = 1 := rfl
  rw [encodeIntegerArray]
  by_cases hsize : (size : ℤ) < 1
  · rw [if_pos hsize]
    exact .noRoom (by omega)
  · rw [if_neg hsize]
    obtain ⟨size, rfl⟩ : ∃ k, size = k + 1 := ⟨size - 1, by omega⟩
    have hroomy' : Roomy block (off + 1) size := hroomy.drop rfl (Nat.succ_pos size)
    -- one byte is left out in front for the width
    have hstart : IntegersAt block (off + 1) size [] 4 ⟨1, block, off + 1,
        ((size + 1 : ℕ) : ℤ) - 1, self⟩ :=
      ⟨rfl, rfl, rfl, (by show ((size + 1 : ℕ) : ℤ) - 1 = size - (0 : ℕ) * (4 : ℕ); omega),
        .nil block (off + 1)⟩
    have hfuel : size + 2 ≤ ((size + 1 : ℕ) : ℤ).toNat + 1 + ([] : List Int64).length := by
      rw [Int.toNat_natCast, List.length_nil]
    have hitems : arrayItems f pairs = [] ++ arrayItems f pairs := rfl
    refine .map (integerArrayLoop_comes h hget hkind hroomy' hitems rfl hstart rfl
      (Nat.le_add_left 1 size)
      hfuel) fun r xs _ _ hpost ↦ ?_
    obtain ⟨noarray, intlen, s⟩ := r
    obtain ⟨is, rfl, hnot, hat, hud, -⟩ := hpost
    obtain rfl : noarray = false := hnot
    dsimp only at hat hud ⊢
    have hbuffer := hat.buffer
    by_cases hnil : is = []
    · rw [hnil, List.length_nil, Nat.zero_mul] at hbuffer
      rw [if_pos hbuffer]
      refine ⟨_, rfl, ?_, hud, ?_⟩
      · rw [hnil]
        rfl
      · rw [hnil]
        exact ⟨hat.filled.keeps.mono (Nat.le_add_right _ _), Lib.Block.at_nil _ _⟩
    · -- something has been written, so the width goes in front
      have hcount : 4 ≤ is.length * intlen := by
        have hpos := List.length_pos_of_ne_nil hnil
        rw [hat.width]
        rcases width_cases is with hw | hw
        all_goals
          rw [hw.1]
          omega
      rw [if_neg (by omega)]
      obtain ⟨block', hfill, hfilled⟩ := @Filled.front _ _ _ _ [UInt8.ofNat intlen]
        (show Filled block (off + 1) s.block _ from hat.filled)
          (by rw [List.length_singleton]; omega)
      have htext : integersText is = [UInt8.ofNat intlen] ++ is.flatMap (integerBytes intlen) := by
        rw [integersText, if_neg hnil, ← hat.width]
        rfl
      rw [hfill, Sproto.ok_bind]
      refine ⟨_, rfl, ?_, hud, ?_⟩
      · rw [htext, List.length_append, List.length_singleton, length_flatMap_integerBytes, hbuffer,
          ← Nat.add_assoc]
        rfl
      · rw [htext]
        exact hfilled

/-- A field has been left: no map is being gone through, and the array that was entered last is its
own or one before. -/
structure FieldLeft (table : LuaPairs) (f : SprotoField n) (ud : EncodeUd) : Prop where
  table : ud.table = table
  iter : ud.iter = 0
  other : ∀ tag, ud.arrayTag = some tag → tag ≤ f.tag

theorem FieldReady.fieldLeft (h : FieldReady table f self) : FieldLeft table f self :=
  ⟨h.table, h.iter, fun tag htag ↦ Nat.le_of_lt (h.other tag htag)⟩

theorem FieldReady.entered (h : FieldReady table f self) (pairs : LuaPairs) :
    FieldLeft table f (self.entered f pairs 0) := by
  refine ⟨h.table, ite_self 0, fun tag htag ↦ ?_⟩
  obtain rfl := Option.some.inj htag
  exact Nat.le_refl _

/-- What a function that writes a value with its length returns. -/
def ValueDone (table : LuaPairs) (f : SprotoField n) (block : Lib.Block UInt8) (off : ℕ)
    (r : ℕ × EncodeUd × Lib.Block UInt8) (xs : List UInt8) : Prop :=
  r.1 = xs.length ∧ FieldLeft table f r.2.1 ∧ Filled block off r.2.2 xs

private theorem le_arrayRoom (f : SprotoField n) : 4 ≤ arrayRoom f := by
  unfold arrayRoom
  split <;> omega

/-! ## Where there is no array -/

variable {r : Sproto (EncodeUd × Lib.Block UInt8)} {size : ℤ}

private theorem encodeIntegerArray_first
    (h : ∀ value length, cb ⟨f, 1, value, length⟩ self block = r.map (.noArray, ·)) :
    encodeIntegerArray cb ⟨f, 0, 0, 0⟩ self block off size =
      if size < 1 then .error .failed else r.map (none, ·) := by
  rw [encodeIntegerArray]
  refine if_congr Iff.rfl rfl ?_
  rw [integerArrayLoop]
  dsimp only
  rw [h]
  cases r with
  | error e => rfl
  | ok p =>
    show (if off + 1 = off + 1 then _ else _) = _
    rw [if_pos rfl]
    rfl

private theorem booleanArrayLoop_first
    (h : ∀ value length, cb ⟨f, 1, value, length⟩ self block = r.map (.noArray, ·)) :
    booleanArrayLoop cb ⟨f, 0, 0, 0⟩ (fuel + 1) ⟨1, block, off, size, self⟩ = r.map (none, ·) := by
  rw [booleanArrayLoop]
  dsimp only
  rw [h]
  cases r <;> rfl

private theorem objectArrayLoop_first
    (h : ∀ value length, cb ⟨f, 1, value, length⟩ self block = r.map (.noArray, ·)) :
    objectArrayLoop cb ⟨f, 0, 0, 0⟩ (fuel + 1) ⟨1, block, off, size, self⟩ =
      if size < 4 then .error .failed else r.map (none, ·) := by
  rw [objectArrayLoop]
  refine if_congr Iff.rfl rfl ?_
  dsimp only
  rw [h]
  cases r <;> rfl

/-- The callback finds no array, or raises an error, when it is called first. -/
theorem encodeElements_first (h : ∀ value length, cb ⟨f, 1, value, length⟩ self block =
    r.map (.noArray, ·)) (hsize : 0 ≤ size) :
    encodeElements cb ⟨f, 0, 0, 0⟩ self block off size =
      if size + 4 < arrayRoom f then .error .failed else r.map (none, ·) := by
  unfold encodeElements arrayRoom
  dsimp only
  cases hk : f.kind with
  | integer =>
    dsimp only
    rw [encodeIntegerArray_first h]
    exact if_congr (by omega) rfl rfl
  | boolean =>
    dsimp only
    rw [booleanArrayLoop_first h, if_neg (by omega)]
  | _ =>
    dsimp only
    rw [objectArrayLoop_first h]
    exact if_congr (by omega) rfl rfl

theorem encodeArray_first (h : ∀ value length, cb ⟨f, 1, value, length⟩ self block =
    r.map (.noArray, ·)) :
    encodeArray cb ⟨f, 0, 0, 0⟩ self block off size =
      if size < arrayRoom f then .error .failed else r.map (0, ·) := by
  have hfour := le_arrayRoom f
  rw [encodeArray]
  by_cases hsize : size < 4
  · rw [if_pos hsize, if_pos (by omega)]
  · rw [if_neg hsize]
    dsimp only
    rw [encodeElements_first h (by omega), Int.sub_add_cancel]
    by_cases hroom : size < arrayRoom f
    · rw [if_pos hroom, if_pos hroom]
      rfl
    · rw [if_neg hroom, if_neg hroom]
      cases r <;> rfl

end ZTask
