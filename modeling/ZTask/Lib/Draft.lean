import Mathlib.Algebra.Ring.Nat
import Mathlib.Data.List.Basic

/-!
# Writers into a room of fixed size

A writer fills a room from the front, and gives up where the room is too small for what comes next.
What it does is laid down as a draft: what it writes in the end, or the error that it raises, and
the room that it takes to come so far. In less room it gives up; if the draft is not steady, it may
also overrun the room.

What comes of a writer (`Draft.Comes`) is found from what comes of its parts: `Comes.bind` for two
of them one behind the other, `Comes.guard` for a writer that looks for room first, `Comes.map` for
one that puts something in front. Room that suffices is enough in any case, and what is written does
not depend on how much there is (`Comes.of_ok`).
-/

namespace Lib

universe u

/-- What a writer writes or the error that it raises, and the room it takes to come so far. -/
structure Draft (β ε : Type*) where
  room : ℕ
  out : Except ε (List β)
  steady : Bool
  fits : ∀ {xs}, out = .ok xs → xs.length ≤ room

/-- How a writer ends that has not written everything. -/
structure Exits (ε φ : Type*) where
  raised : ε → φ
  noRoom : φ
  overrun : φ

namespace Draft

variable {β ε φ : Type*} {α γ : Type u}

def text (xs : List β) : Draft β ε :=
  ⟨xs.length, .ok xs, true, fun h ↦ by cases h; exact Nat.le_refl _⟩

def raise (e : ε) : Draft β ε := ⟨0, .error e, true, fun h ↦ by cases h⟩

/-- More room is wanted. -/
def atLeast (k : ℕ) (p : Draft β ε) : Draft β ε :=
  ⟨max k p.room, p.out, p.steady, fun h ↦ Nat.le_trans (p.fits h) (Nat.le_max_right _ _)⟩

/-- Something else has to hold if the room is not to be overrun. -/
def andSteady (p : Draft β ε) (b : Bool) : Draft β ε := { p with steady := p.steady && b }

/-- One writer after the other; the second one does not run if the first one raises an error. -/
def append (p q : Draft β ε) : Draft β ε where
  room :=
    match p.out with
    | .error _ => p.room
    | .ok xs => max p.room (xs.length + q.room)
  out :=
    match p.out with
    | .error e => .error e
    | .ok xs => q.out.map (xs ++ ·)
  steady :=
    match p.out with
    | .error _ => p.steady
    | .ok _ => p.steady && q.steady
  fits := by
    intro zs h
    split at h
    next => cases h
    next xs hp =>
      cases hq : q.out with
      | error e =>
        rw [hq] at h
        cases h
      | ok ys =>
        rw [hq] at h
        cases h
        have hys := q.fits hq
        rw [List.length_append]
        omega

/-- Writers one after the other. -/
def all (ps : List (Draft β ε)) : Draft β ε := ps.foldr append (text [])

/-- A writer that leaves room in front, and puts there what depends on the rest. -/
def framed (w : ℕ) (header : List β → List β) (hheader : ∀ xs, (header xs).length ≤ w)
    (p : Draft β ε) :
    Draft β ε where
  room := w + p.room
  out := p.out.map fun xs ↦ header xs ++ xs
  steady := p.steady
  fits := by
    intro zs h
    cases hp : p.out with
    | error e =>
      rw [hp] at h
      cases h
    | ok xs =>
      rw [hp] at h
      cases h
      have hxs := p.fits hp
      have hw := hheader xs
      rw [List.length_append]
      omega

variable {p q : Draft β ε} {xs ys zs : List β} {e : ε}

theorem append_room_ok (h : p.out = .ok xs) :
    (p.append q).room = max p.room (xs.length + q.room) := by
  show (match p.out with | .error _ => _ | .ok xs => _) = _
  rw [h]

theorem append_out_ok (h : p.out = .ok xs) : (p.append q).out = q.out.map (xs ++ ·) := by
  show (match p.out with | .error e => _ | .ok xs => _) = _
  rw [h]

theorem append_out_error (h : p.out = .error e) : (p.append q).out = .error e := by
  show (match p.out with | .error e => _ | .ok xs => _) = _
  rw [h]

theorem append_steady_ok (h : p.out = .ok xs) : (p.append q).steady = (p.steady && q.steady) := by
  show (match p.out with | .error _ => _ | .ok _ => _) = _
  rw [h]

/-- The room of the first writer is wanted in any case. -/
theorem le_append_room (p q : Draft β ε) : p.room ≤ (p.append q).room := by
  show _ ≤ match p.out with | .error _ => _ | .ok xs => _
  split
  · exact Nat.le_refl _
  · exact Nat.le_max_left _ _

theorem append_steady_error (h : p.out = .error e) : (p.append q).steady = p.steady := by
  show (match p.out with | .error _ => _ | .ok _ => _) = _
  rw [h]

theorem append_steady (h : (p.append q).steady = true) : p.steady = true := by
  cases hp : p.out with
  | error e => exact (append_steady_error hp).symm.trans h
  | ok xs =>
    rw [append_steady_ok hp] at h
    exact (Bool.and_eq_true_iff.mp h).1

theorem append_steady_of (hp : p.steady = true) (hq : q.steady = true) :
    (p.append q).steady = true := by
  cases hout : p.out with
  | error e => rw [append_steady_error hout, hp]
  | ok xs => rw [append_steady_ok hout, hp, hq, Bool.and_self]

/-- Writers that do not overrun their room do not do so one after the other, either. -/
theorem all_steady {ps : List (Draft β ε)} (h : ∀ p ∈ ps, p.steady = true) :
    (all ps).steady = true := by
  induction ps with
  | nil => rfl
  | cons p ps ih =>
    exact append_steady_of (h p List.mem_cons_self) (ih fun q hq ↦ h q (List.mem_cons_of_mem p hq))

theorem append_out_eq_ok :
    (p.append q).out = .ok zs ↔ ∃ xs ys, p.out = .ok xs ∧ q.out = .ok ys ∧ zs = xs ++ ys := by
  constructor
  · intro h
    cases hp : p.out with
    | error e =>
      rw [append_out_error hp] at h
      cases h
    | ok xs =>
      rw [append_out_ok hp] at h
      cases hq : q.out with
      | error e =>
        rw [hq] at h
        cases h
      | ok ys =>
        rw [hq] at h
        cases h
        exact ⟨xs, ys, rfl, rfl, rfl⟩
  · rintro ⟨xs, ys, hp, hq, rfl⟩
    rw [append_out_ok hp, hq]
    rfl

theorem framed_out_eq_ok {w : ℕ} {header : List β → List β}
    {hheader : ∀ xs, (header xs).length ≤ w} :
    (p.framed w header hheader).out = .ok zs ↔ ∃ xs, p.out = .ok xs ∧ zs = header xs ++ xs := by
  show p.out.map _ = .ok zs ↔ _
  cases p.out with
  | error e =>
    constructor
    · intro h
      cases h
    · rintro ⟨xs, h, -⟩
      cases h
  | ok xs =>
    constructor
    · intro h
      cases h
      exact ⟨xs, rfl, rfl⟩
    · rintro ⟨ys, h, rfl⟩
      cases h
      rfl

/-! ## What comes of a writer -/

/-- What comes of a writer in a room of `size` cells: it returns something that suits what it has
written, raises the error, or gives up. -/
inductive Comes (E : Exits ε φ) (p : Draft β ε) (size : ℕ) (Post : α → List β → Prop) :
    Except φ α → Prop
  | wrote {a : α} {xs : List β} :
    p.room ≤ size → p.out = .ok xs → Post a xs → Comes E p size Post (.ok a)
  | raised {e : ε} : p.room ≤ size → p.out = .error e → Comes E p size Post (.error (E.raised e))
  | noRoom : size < p.room → Comes E p size Post (.error E.noRoom)
  | overrun : size < p.room → p.steady = false → Comes E p size Post (.error E.overrun)

namespace Comes

variable {E : Exits ε φ} {size : ℕ} {Post : α → List β → Prop} {r : Except φ α}

theorem mono {Post' : α → List β → Prop} (h : Comes E p size Post r)
    (himp : ∀ a xs, p.out = .ok xs → xs.length ≤ size → Post a xs → Post' a xs) :
    Comes E p size Post' r := by
  cases h with
  | wrote hroom hout hpost =>
    exact .wrote hroom hout (himp _ _ hout (Nat.le_trans (p.fits hout) hroom) hpost)
  | raised hroom hout => exact .raised hroom hout
  | noRoom hroom => exact .noRoom hroom
  | overrun hroom hsteady => exact .overrun hroom hsteady

/-- A value that is returned tells what has been written. -/
theorem of_ok {a : α} (h : Comes E p size Post (.ok a)) :
    ∃ xs, p.room ≤ size ∧ p.out = .ok xs ∧ Post a xs := by
  cases h with
  | wrote hroom hout hpost => exact ⟨_, hroom, hout, hpost⟩

/-- A writer that stops, with others behind it. -/
theorem stop {Post' : γ → List β → Prop} {e : φ} (h : Comes E p size Post (.error e)) :
    Comes E (p.append q) size Post' (.error e) := by
  have hle := le_append_room p q
  cases h with
  | raised hroom hout =>
    refine .raised ?_ (append_out_error hout)
    show (match p.out with | .error _ => _ | .ok xs => _) ≤ _
    rw [hout]
    exact hroom
  | noRoom hroom => exact .noRoom (Nat.lt_of_lt_of_le hroom hle)
  | overrun hroom hsteady =>
    refine .overrun (Nat.lt_of_lt_of_le hroom hle) ?_
    by_contra hnot
    rw [append_steady (Bool.of_not_eq_false hnot)] at hsteady
    cases hsteady

/-- A writer that has written, and another one behind it. -/
theorem behind (hroom : p.room ≤ size) (hout : p.out = .ok xs)
    (h : Comes E q (size - xs.length) (fun a ys ↦ Post a (xs ++ ys)) r) :
    Comes E (p.append q) size Post r := by
  have hfit := p.fits hout
  have hboth := append_room_ok (q := q) hout
  -- the rest takes its room behind what the first writer has written
  cases h with
  | wrote hroom' hout' hpost' =>
    exact .wrote (by omega) (append_out_eq_ok.mpr ⟨xs, _, hout, hout', rfl⟩) hpost'
  | raised hroom' hout' =>
    refine .raised (by omega) ?_
    rw [append_out_ok hout, hout']
    rfl
  | noRoom hroom' => exact .noRoom (by omega)
  | overrun hroom' hsteady =>
    refine .overrun (by omega) ?_
    rw [append_steady_ok hout, hsteady, Bool.and_false]

/-- Two writers one behind the other: the second one has the room that the first one has left. -/
theorem bind {x : Except φ α} {f : α → Except φ γ} {Post' : γ → List β → Prop}
    (h : Comes E p size Post x) (hf : ∀ a xs, p.out = .ok xs → xs.length ≤ size → Post a xs →
      Comes E q (size - xs.length) (fun c ys ↦ Post' c (xs ++ ys)) (f a)) :
    Comes E (p.append q) size Post' (x >>= f) := by
  cases x with
  | error e => exact h.stop
  | ok a =>
    obtain ⟨xs, hroom, hout, hpost⟩ := h.of_ok
    exact behind hroom hout (hf a xs hout (Nat.le_trans (p.fits hout) hroom) hpost)

/-- What is returned is made into something else. -/
theorem map {x : Except φ α} {f : α → Except φ γ} {Post' : γ → List β → Prop}
    (h : Comes E p size Post x)
    (hf : ∀ a xs, p.out = .ok xs → xs.length ≤ size → Post a xs → ∃ c, f a = .ok c ∧ Post' c xs) :
    Comes E p size Post' (x >>= f) := by
  cases h with
  | raised hroom hout => exact .raised hroom hout
  | noRoom hroom => exact .noRoom hroom
  | overrun hroom hsteady => exact .overrun hroom hsteady
  | @wrote a xs hroom hout hpost =>
    obtain ⟨c, hc, hpost'⟩ := hf a xs hout (Nat.le_trans (p.fits hout) hroom) hpost
    show Comes E p size Post' (f a)
    rw [hc]
    exact .wrote hroom hout hpost'

/-- A writer that looks for room first. -/
theorem guard {k : ℕ} {x : Except φ α} (h : k ≤ size → Comes E p size Post x) :
    Comes E (p.atLeast k) size Post (if size < k then .error E.noRoom else x) := by
  have hmax : (p.atLeast k).room = max k p.room := rfl
  by_cases hk : size < k
  · rw [if_pos hk]
    exact .noRoom (by omega)
  · rw [if_neg hk]
    have hx := h (by omega)
    generalize x = y at hx
    cases hx with
    | wrote hroom hout hpost => exact .wrote (by omega) hout hpost
    | raised hroom hout => exact .raised (by omega) hout
    | noRoom hroom => exact .noRoom (by omega)
    | overrun hroom hsteady => exact .overrun (by omega) hsteady

/-- A writer that leaves room in front, and stops. -/
theorem framedStop {w : ℕ} {header : List β → List β} {hheader : ∀ xs, (header xs).length ≤ w}
    {Post' : γ → List β → Prop} {e : φ} (hw : w ≤ size) (h : Comes E p (size - w) Post (.error e)) :
    Comes E (p.framed w header hheader) size Post' (.error e) := by
  have hroom : (p.framed w header hheader).room = w + p.room := rfl
  cases h with
  | raised hfit hout =>
    refine .raised (by omega) ?_
    show p.out.map _ = _
    rw [hout]
    rfl
  | noRoom hfit => exact .noRoom (by omega)
  | overrun hfit hsteady => exact .overrun (by omega) hsteady

/-- A writer that leaves room in front. -/
theorem framed {w : ℕ} {header : List β → List β} {hheader : ∀ xs, (header xs).length ≤ w}
    {x : Except φ α} {f : α → Except φ γ} {Post' : γ → List β → Prop} (hw : w ≤ size)
    (h : Comes E p (size - w) Post x)
    (hf : ∀ a xs, p.out = .ok xs → w + xs.length ≤ size → Post a xs →
      ∃ c, f a = .ok c ∧ Post' c (header xs ++ xs)) :
    Comes E (p.framed w header hheader) size Post' (x >>= f) := by
  have hroom : (p.framed w header hheader).room = w + p.room := rfl
  cases x with
  | error e => exact framedStop hw h
  | ok a =>
    obtain ⟨xs, hfit, hout, hpost⟩ := h.of_ok
    have hlen := p.fits hout
    obtain ⟨c, hc, hpost'⟩ := hf a xs hout (by omega) hpost
    show Comes E _ size Post' (f a)
    rw [hc]
    exact .wrote (by omega) (framed_out_eq_ok.mpr ⟨xs, hout, rfl⟩) hpost'

/-- A writer that leaves room in front, and another one behind it. -/
theorem framedBind {w : ℕ} {header : List β → List β} {hheader : ∀ xs, (header xs).length ≤ w}
    {x : Except φ α} {f : α → Except φ γ} {Post' : γ → List β → Prop} (hw : w ≤ size)
    (h : Comes E p (size - w) Post x)
    (hf : ∀ a xs, p.out = .ok xs → w + xs.length ≤ size → Post a xs →
      Comes E q (size - (header xs ++ xs).length)
        (fun c ys ↦ Post' c ((header xs ++ xs) ++ ys)) (f a)) :
    Comes E ((p.framed w header hheader).append q) size Post' (x >>= f) := by
  have hroom : (p.framed w header hheader).room = w + p.room := rfl
  cases x with
  | error e =>
    have hstop : Comes E (p.framed w header hheader) size Post (.error e) := framedStop hw h
    exact hstop.stop
  | ok a =>
    obtain ⟨xs, hfit, hout, hpost⟩ := h.of_ok
    have hlen := p.fits hout
    exact behind (by omega) (framed_out_eq_ok.mpr ⟨xs, hout, rfl⟩) (hf a xs hout (by omega) hpost)

theorem andSteady (h : Comes E p size Post r) (b : Bool) : Comes E (p.andSteady b) size Post r := by
  cases h with
  | wrote hroom hout hpost => exact .wrote hroom hout hpost
  | raised hroom hout => exact .raised hroom hout
  | noRoom hroom => exact .noRoom hroom
  | overrun hroom hsteady =>
    refine .overrun hroom ?_
    show (p.steady && b) = false
    rw [hsteady, Bool.false_and]

end Comes

end Draft

end Lib
