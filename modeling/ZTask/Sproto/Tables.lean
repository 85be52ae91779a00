import ZTask.Sproto.Fields

/-!
# Tables

`sproto_encode` goes through the fields of a type. The records are put into the header one behind
the other, with the room that the longest header needs, and the data stand behind that room; in the
end they are moved to the header (`sprotoEncode_comes`).

## Depth

A field may be a table, so `sproto_encode` and its callback call one another. The lemmas on fields
take what is to be shown of nested tables as a hypothesis (`EncodesTables`), and `encode_comes`
discharges it by induction on how deep tables may still be.
-/

namespace ZTask

open Lib

variable {n : ℕ} {conv : LuaConversion} {types : Fin n → SprotoType n} {table : LuaPairs}
  {block block' : Lib.Block UInt8} {header size room : ℕ} {words : List ℕ} {xs ys : List UInt8}
  {s : Encoding EncodeUd}

/-! ## The header -/

/-- Words of the header and data have been written, in a buffer with room for `room` words and
`size` bytes. -/
structure HeaderAt (block : Lib.Block UInt8) (header room size : ℕ) (words : List ℕ)
    (xs : List UInt8) (s : Encoding EncodeUd) : Prop where
  keeps : block.KeepsFront s.block header
  wordsAt : s.block.At (header + 2) (words.flatMap (toLittle 2))
  index : s.index = words.length
  textAt : s.block.At (header + (2 + room * 2)) xs
  data : s.data = header + (2 + room * 2) + xs.length
  left : s.size = (size - xs.length : ℕ)
  fits : xs.length ≤ size

theorem length_words (words : List ℕ) : (words.flatMap (toLittle 2)).length = 2 * words.length := by
  have h := length_headerText words
  rw [headerText, List.length_append, length_toLittle] at h
  omega

/-- Data are written behind the others. -/
theorem HeaderAt.fill (h : HeaderAt block header room size words xs s)
    (hwords : words.length ≤ room)
    (hfilled : Filled s.block s.data block' ys) (hys : xs.length + ys.length ≤ size)
    {data : ℕ} {rest : ℤ}
    (hdata : data = s.data + ys.length) (hrest : rest = s.size - ys.length) (ud : EncodeUd) :
    HeaderAt block header room size words (xs ++ ys) ⟨block', ud, data, rest, s.index,
      s.lasttag⟩ := by
  have hplace := h.data
  have hsize := h.left
  have hfits := h.fits
  refine ⟨h.keeps.trans hfilled.keeps (by omega), hfilled.keeps.2 h.wordsAt ?_, h.index,
    ?_, ?_, ?_, ?_⟩
  · rw [length_words]
    omega
  · refine (hfilled.keeps.2 h.textAt (Nat.le_of_eq hplace.symm)).append ?_
    rw [← hplace]
    exact hfilled.stands
  · show data = _
    rw [List.length_append]
    omega
  · show rest = _
    rw [List.length_append]
    omega
  · rw [List.length_append]
    exact hys

/-- A word is put behind the others. -/
theorem HeaderAt.word (h : HeaderAt block header room size words xs s)
    (hwords : words.length < room)
    (hfits : header + (2 + room * 2) ≤ block.length) (w : ℕ) (lasttag : ℤ) :
    ∃ block', fillBytes s.block (header + 2 + 2 * s.index) (toLittle 2 w) = .ok block' ∧
      HeaderAt block header room size (words ++ [w]) xs
        ⟨block', s.ud, s.data, s.size, s.index + 1, lasttag⟩ := by
  have hindex := h.index
  have hlen : s.block.length = block.length := h.keeps.1
  obtain ⟨block', hwrite⟩ := @Lib.Block.write?_eq_some _ s.block (header + 2 + 2 * s.index)
      (toLittle 2 w)
    (by rw [length_toLittle]; omega)
  refine ⟨block', by rw [fillBytes, hwrite],
    h.keeps.trans (.of_write? hwrite (by omega)) (Nat.le_refl _),
    ?_, ?_, ?_, h.data, h.left, h.fits⟩
  · rw [List.flatMap_append, List.flatMap_singleton]
    have hfront : block'.At (header + 2) (words.flatMap (toLittle 2)) :=
      h.wordsAt.write? hwrite (.inl (by rw [length_words, hindex]))
    refine hfront.append ?_
    rw [length_words, ← hindex]
    exact .of_write? hwrite
  · show s.index + 1 = _
    rw [List.length_append, hindex]
    rfl
  · exact h.textAt.write? hwrite (.inr (by rw [length_toLittle]; omega))

/-- **The record of a field**, with one in front of it if tags are left out. -/
theorem putRecord_eq (h : HeaderAt block header room size words xs s) {tag value : ℕ}
    (hlast : -1 ≤ s.lasttag) (hlt : s.lasttag < tag) (htag : tag < 0x7fff)
    (hwords : words.length + (recordWords s.lasttag [(tag, value)]).length ≤ room)
    (hfits : header + (2 + room * 2) ≤ block.length) :
    ∃ s', putRecord header tag value s = .ok s' ∧ s'.lasttag = tag ∧ s'.ud = s.ud ∧
      HeaderAt block header room size (words ++ recordWords s.lasttag [(tag, value)]) xs s' := by
  rw [recordWords, recordWords] at hwords ⊢
  rw [putRecord]
  dsimp only
  by_cases hskip : s.lasttag + 1 < tag
  · -- a word that is odd stands for the tags between
    rw [if_pos hskip] at hwords ⊢
    rw [if_pos (by omega), if_neg (by omega)]
    rw [List.length_append, List.length_singleton, List.length_singleton] at hwords
    obtain ⟨block₁, hfill₁, h₁⟩ := h.word (by omega) hfits ((tag - s.lasttag - 2) * 2 + 1).toNat tag
    obtain ⟨block₂, hfill₂, h₂⟩ :=
      h₁.word (by rw [List.length_append, List.length_singleton]; omega) hfits
      value tag
    have hoff : header + 2 + 2 * (s.index + 1) = header + 2 + 2 * s.index + 2 := by omega
    dsimp only at hfill₂
    rw [hoff] at hfill₂
    rw [show (tag : ℤ) - s.lasttag - 1 - 1 = tag - s.lasttag - 2 by omega, hfill₁,
      Sproto.ok_bind, hfill₂]
    rw [List.append_assoc] at h₂
    exact ⟨_, rfl, rfl, rfl, h₂⟩
  · rw [if_neg hskip] at hwords ⊢
    rw [if_neg (by omega)]
    rw [List.nil_append, List.length_singleton] at hwords
    obtain ⟨block₁, hfill₁, h₁⟩ := h.word (by omega) hfits value tag
    rw [hfill₁]
    exact ⟨_, rfl, rfl, rfl, h₁⟩

/-! ## The fields -/

/-- What the loop starts a field with, whatever fields are left. -/
structure FieldsReady (table : LuaPairs) (fs : List (SprotoField n)) (ud : EncodeUd) : Prop where
  table : ud.table = table
  iter : ud.iter = 0
  other : ∀ tag, ud.arrayTag = some tag → ∀ f ∈ fs, tag < f.tag

variable {cb : EncodeCallback n EncodeUd} {record : SprotoField n → Option ℕ}
  {draft : SprotoField n → SprotoDraft}

/-- Each field is encoded as it is laid down. -/
def EncodesFields (cb : EncodeCallback n EncodeUd) (table : LuaPairs)
    (record : SprotoField n → Option ℕ) (draft : SprotoField n → SprotoDraft) : Prop :=
  ∀ f block off size self index lasttag, Roomy block off size → FieldReady table f self →
    (draft f).Comes sprotoExits size (FieldDone table f (record f) block off)
      (encodeField cb f ⟨block, self, off, size, index, lasttag⟩)

/-- What the loop over the fields comes to. -/
def FieldsDone (block : Lib.Block UInt8) (header room size : ℕ) (words : List ℕ) (xs : List UInt8)
    (r : Bool × Encoding EncodeUd) (ys : List UInt8) : Prop :=
  r.1 = false ∧ HeaderAt block header room size words (xs ++ ys) r.2

private theorem recordWords_cons (last : ℤ) (e : ℕ × ℕ) (es : List (ℕ × ℕ)) :
    recordWords last (e :: es) = recordWords last [e] ++ recordWords e.1 es := by
  rw [recordWords, recordWords, recordWords, List.append_assoc]
  rfl

/-- **The loop over the fields.** -/
theorem encodeFields_comes (hcb : EncodesFields cb table record draft)
    (hroomy : Roomy block (header + (2 + room * 2)) size) {fs : List (SprotoField n)}
    (hasc : (fs.map SprotoField.tag).Pairwise (· < ·)) (hbounded : ∀ f ∈ fs, f.tag < 0x7fff)
    (hs : HeaderAt block header room size words xs s) (hud : FieldsReady table fs s.ud)
    (hlast : -1 ≤ s.lasttag) (hlt : ∀ f ∈ fs, s.lasttag < f.tag)
    (hwords : words.length + (recordWords s.lasttag (recordsOf record fs)).length ≤ room) :
    (Draft.all (fs.map draft)).Comes sprotoExits (size - xs.length)
      (FieldsDone block header room size (words ++ recordWords s.lasttag (recordsOf record fs)) xs)
      (encodeFields cb header fs s) := by
  have hfit := hroomy.fits
  induction fs generalizing words xs s with
  | nil =>
    refine .wrote (Nat.zero_le _) rfl ⟨rfl, ?_⟩
    rw [List.append_nil]
    have hnone : recordWords s.lasttag (recordsOf record []) = [] := rfl
    rw [hnone, List.append_nil]
    exact hs
  | cons f fs ih =>
    rw [List.map_cons, List.pairwise_cons] at hasc
    have hfront : ∀ g ∈ fs, f.tag < g.tag := fun g hg ↦ hasc.1 g.tag (List.mem_map_of_mem hg)
    have hbounded' : ∀ g ∈ fs, g.tag < 0x7fff := fun g hg ↦ hbounded g (List.mem_cons_of_mem f hg)
    obtain ⟨b, self, data, rest, index, lasttag⟩ := s
    have hplace := hs.data
    have hfits := hs.fits
    have hleft := hs.left
    have hlen : b.length = block.length := hs.keeps.1
    dsimp only at hplace hleft hud hlast hlt hwords ⊢
    have hready : FieldReady table f self :=
      ⟨hud.table, hud.iter, fun tag htag ↦ hud.other tag htag f List.mem_cons_self⟩
    have hroomy' : Roomy b data (size - xs.length) := by
      rw [hplace]
      exact hroomy.drop hlen hfits
    have hfield := hcb f b data (size - xs.length) self index lasttag hroomy' hready
    rw [← hleft] at hfield
    rw [encodeFields]
    refine hfield.bind fun r ys _ hys hdone ↦ ?_
    obtain ⟨answer, ud, block₁⟩ := r
    obtain ⟨hafter, hfilled, hrecord⟩ := hdone
    dsimp only at hafter hfilled hrecord
    have hud' : FieldsReady table fs ud :=
      ⟨hafter.table, hafter.iter,
        fun tag htag g hg ↦ Nat.lt_of_le_of_lt (hafter.other tag htag) (hfront g hg)⟩
    rw [Nat.sub_sub, ← List.length_append]
    rcases hrecord with ⟨hnone, rfl, hanswer⟩ | ⟨value, sz, hsome, rfl, hsz, hsize⟩
    · -- the field is left out
      have hskip : recordsOf record (f :: fs) = recordsOf record fs := by
        rw [recordsOf, List.filterMap_cons_none (by rw [hnone]; rfl)]
        rfl
      rw [hskip] at hwords ⊢
      have hs' := hs.fill (by omega) hfilled (by rw [List.length_nil]; omega)
          (Nat.add_zero data).symm
        (show rest = rest - (0 : ℕ) by omega) ud
      rw [List.append_nil] at hs' ⊢
      have hrest := ih hasc.2 hbounded' hs' hud' hlast
          (fun g hg ↦ hlt g (List.mem_cons_of_mem f hg)) hwords
      rcases hanswer with rfl | rfl
      · exact hrest
      · dsimp only
        rw [if_pos rfl]
        exact hrest
    · have hput : recordsOf record (f :: fs) = (f.tag, value) :: recordsOf record fs := by
        rw [recordsOf, List.filterMap_cons_some (by rw [hsome]; rfl)]
        rfl
      rw [hput, recordWords_cons] at hwords ⊢
      rw [List.length_append] at hwords
      dsimp only at hwords ⊢
      rw [if_neg hsz]
      -- the data are taken as written, if the record says that they are there
      obtain ⟨s₁, hmove, hlast₁, hud₁, hs₁⟩ : ∃ s₁,
          (if value = 0 then Encoding.mk block₁ ud (data + sz) (rest - sz) index lasttag
            else ⟨block₁, ud, data, rest, index, lasttag⟩) = s₁ ∧
              s₁.lasttag = lasttag ∧ s₁.ud = ud ∧
          HeaderAt block header room size words (xs ++ ys) s₁ := by
        by_cases hvalue : value = 0
        · rw [if_pos hvalue] at hsize ⊢
          exact ⟨_, rfl, rfl, rfl,
            hs.fill (by omega) hfilled (by omega) (by rw [hsize]) (by rw [hsize]) ud⟩
        · rw [if_neg hvalue] at hsize ⊢
          refine ⟨_, rfl, rfl, rfl, hs.fill (by omega) hfilled (by omega) ?_ ?_ ud⟩
          · rw [hsize]
            rfl
          · rw [hsize]
            exact (Int.sub_zero rest).symm
      rw [hmove]
      rw [← hlast₁] at hwords ⊢
      have hroom : words.length + (recordWords s₁.lasttag [(f.tag, value)]).length ≤
          room := by omega
      obtain ⟨s₂, hrecord, hlast₂, hud₂, hs₂⟩ := putRecord_eq hs₁ (by omega)
        (by rw [hlast₁]; exact hlt f List.mem_cons_self) (hbounded f List.mem_cons_self)
          hroom (by omega)
      rw [hrecord, Sproto.ok_bind]
      have hrest := ih hasc.2 hbounded' hs₂ (by rw [hud₂, hud₁]; exact hud') (by omega)
        (fun g hg ↦ by rw [hlast₂]; exact Int.ofNat_lt.mpr (hfront g hg))
        (by rw [hlast₂, List.length_append]; omega)
      rw [hlast₂, List.append_assoc] at hrest
      refine hrest.mono fun r zs _ _ hpost ↦ ⟨hpost.1, ?_⟩
      have hall := hpost.2
      rwa [List.append_assoc xs] at hall

/-! ## The whole table -/

/-- **`sproto_encode`** writes the text of a table, given that its fields are encoded as they are
laid down. -/
theorem sprotoEncode_comes (hcb : EncodesFields cb table record draft) (st : SprotoType n) {off : ℕ}
    (hroomy : Roomy block off size) :
    (structDraft st record draft).Comes sprotoExits size (Returned block off)
      (sprotoEncode cb st block off size (.start table)) := by
  have hfit := hroomy.fits
  rw [sprotoEncode, structDraft]
  dsimp only
  by_cases hsize : (size : ℤ) < (2 + st.maxn * 2 : ℕ)
  · rw [if_pos hsize]
    exact .noRoom (by show size < 2 + st.maxn * 2 + _; omega)
  · rw [if_neg hsize, show (size : ℤ) - (2 + st.maxn * 2 : ℕ) =
      (size - (2 + st.maxn * 2) : ℕ) by omega]
    have hstart : HeaderAt block off st.maxn (size - (2 + st.maxn * 2)) [] []
        ⟨block, .start table, off + (2 + st.maxn * 2), (size - (2 + st.maxn * 2) : ℕ), 0, -1⟩ :=
      ⟨.refl block off, Lib.Block.at_nil _ _, rfl, Lib.Block.at_nil _ _, rfl, rfl, Nat.zero_le _⟩
    have hready : FieldsReady table st.f (EncodeUd.start table) :=
      ⟨rfl, rfl, fun tag h ↦ by cases h⟩
    have hcount := length_headerWords_le record st
    have hloop := encodeFields_comes hcb (hroomy.drop rfl (by omega)) st.ascending
        st.bounded hstart hready
      (Int.le_refl (-1)) (fun f _ ↦ by show (-1 : ℤ) < f.tag; omega)
      (by rw [List.length_nil, Nat.zero_add]; exact hcount)
    refine .framed (by omega) hloop fun r xs _ hxs hpost ↦ ?_
    obtain ⟨stopped, s⟩ := r
    obtain ⟨rfl, hs⟩ : stopped = false ∧
      HeaderAt block off st.maxn _ ([] ++ headerWords record st) ([] ++ xs) s := hpost
    rw [List.nil_append, List.nil_append] at hs
    generalize headerWords record st = words at hs hcount ⊢
    have hindex := hs.index
    have hplace := hs.data
    have hlen : s.block.length = block.length := hs.keeps.1
    dsimp only
    rw [if_neg Bool.false_ne_true]
    obtain ⟨block₁, hwrite₁⟩ := @Lib.Block.write?_eq_some _ s.block off (toLittle 2 s.index)
      (by rw [length_toLittle]; omega)
    have hwords₁ : block₁.At (off + 2) (words.flatMap (toLittle 2)) :=
      hs.wordsAt.write? hwrite₁ (.inr (by rw [length_toLittle]))
    have htext₁ : block₁.At (off + (2 + st.maxn * 2)) xs :=
      hs.textAt.write? hwrite₁ (.inr (by rw [length_toLittle]; omega))
    have hheader₁ : block₁.At off (headerText words) := by
      have hfirst := Lib.Block.At.of_write? hwrite₁
      rw [hindex] at hfirst
      refine hfirst.append ?_
      rw [length_toLittle]
      exact hwords₁
    have hkeeps₁ : block.KeepsFront block₁ off :=
      hs.keeps.trans (.of_write? hwrite₁ (Nat.le_refl _)) (Nat.le_refl _)
    have hlen₁ : block₁.length = block.length := hkeeps₁.1
    have hheader : (headerText words).length = 2 + s.index * 2 := by rw [length_headerText, hindex]
    have htotal : 2 + s.index * 2 + xs.length = (headerText words ++ xs).length := by
      rw [List.length_append, hheader]
    rw [hplace, Nat.add_sub_cancel_left, htotal, fillBytes, hwrite₁, Sproto.ok_bind]
    by_cases hfull : s.index = st.maxn
    · -- there is a word for each that the header has room for
      rw [if_pos hfull]
      refine ⟨_, rfl, rfl, hkeeps₁, hheader₁.append ?_⟩
      rw [hheader, hfull]
      exact htext₁
    · -- the header is shorter, and the data are moved to it
      rw [if_neg hfull, fetchBytes_eq htext₁ rfl, Sproto.ok_bind]
      obtain ⟨block₂, hwrite₂⟩ :=
        @Lib.Block.write?_eq_some _ block₁ (off + 2 + s.index * 2) xs (by omega)
      rw [fillBytes, hwrite₂]
      refine ⟨_, rfl, rfl, hkeeps₁.trans (.of_write? hwrite₂ (by omega)) (Nat.le_refl _), ?_⟩
      have hheader₂ := hheader₁.write? hwrite₂ (.inl (by omega))
      refine hheader₂.append ?_
      rw [hheader, ← Nat.add_assoc]
      exact .of_write? hwrite₂

/-- **Tables that may be so many tables deep.** -/
theorem encode_comes (conv : LuaConversion) (types : Fin n → SprotoType n) (left : ℕ) :
    EncodesTables types (encode conv types left) (textDraft conv types left) := by
  induction left with
  | zero =>
    intro st table block off size hroomy
    refine sprotoEncode_comes (fun f b o k self index lasttag _ _ ↦ ?_) (types st) hroomy
    exact encodeField_deep f table b self
  | succ left ih =>
    intro st table block off size hroomy
    refine sprotoEncode_comes (fun f b o k self index lasttag hroom hready ↦ ?_) (types st) hroomy
    exact encodeField_comes hready ih hroom

end ZTask
