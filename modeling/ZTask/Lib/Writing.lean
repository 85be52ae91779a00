import Mathlib.Algebra.Ring.Int.Defs
import Mathlib.Algebra.Ring.Nat
import Mathlib.Data.List.Forall2

/-!
# Writers and what they write

A writer appends to what has been written, and makes room for it first. What it does is laid out
before it runs: the demands for room that it makes one after the other, and what it writes in the
end or the error that it stops with (`Layout`). A layout is run on any sink (`Layout.run`); the
demands come first, since each piece is written right behind the demand for it. Writers that run one
after the other are one layout (`Layout.run_append`), and so is a writer that goes back to put a
header in front (`Layout.run_framed`).

How room is made, and when there is none, is up to the program (`Supply`).
-/

namespace Lib

variable {β κ δ ε : Type}

/-- What has been written, and the room for it. -/
structure Sink (β κ : Type) where
  written : List β
  room : κ

/-- A computation on a sink that returns a value or fails. -/
abbrev Writing (β κ ε : Type) := StateT (Sink β κ) (Except ε)

namespace Writing

theorem bind_ok {α γ : Type} {x : Writing β κ ε α}
    {f : α → Writing β κ ε γ} {s s' : Sink β κ} {a : α}
    (h : x s = .ok (a, s')) : (x >>= f) s = f a s' := by
  show (x s).bind _ = _
  rw [h]
  rfl

theorem bind_error {α γ : Type} {x : Writing β κ ε α} {f : α → Writing β κ ε γ}
    {s : Sink β κ} {e : ε} (h : x s = .error e) : (x >>= f) s = .error e := by
  show (x s).bind _ = _
  rw [h]
  rfl

def fail {α : Type} (e : ε) : Writing β κ ε α := fun _ ↦ .error e

/-- How much has been written. -/
def size : Writing β κ ε ℕ := fun s ↦ .ok (s.written.length, s)

/-- Write over what has been written. -/
def patch (off : ℕ) (xs : List β) : Writing β κ ε PUnit := fun s ↦
  .ok ((), { s with written := s.written.take off ++ xs ++ s.written.drop (off + xs.length) })

end Writing

/-- How room is made: what a demand takes, and the room after a demand at a size. -/
structure Supply (δ κ ε : Type) where
  width : δ → ℕ
  grant : ℕ → κ → δ → Except ε κ

/-- The room after demands that are made one after the other, the first one at a size. -/
def Supply.grantAll (S : Supply δ κ ε) : ℕ → κ → List δ → Except ε κ
  | _, room, [] => .ok room
  | size, room, d :: ds =>
    match S.grant size room d with
    | .error e => .error e
    | .ok room => S.grantAll (size + S.width d) room ds

theorem Supply.grantAll_singleton (S : Supply δ κ ε) (size : ℕ) (room : κ) (d : δ) :
    S.grantAll size room [d] = S.grant size room d := by
  rw [grantAll]
  cases S.grant size room d with
  | error e => rfl
  | ok room => rfl

theorem Supply.grantAll_append (S : Supply δ κ ε) (size : ℕ) (room : κ) (ds es : List δ) :
    S.grantAll size room (ds ++ es) =
      match S.grantAll size room ds with
      | .error e => .error e
      | .ok room => S.grantAll (size + (ds.map S.width).sum) room es := by
  induction ds generalizing size room with
  | nil => rfl
  | cons d ds ih =>
    rw [List.cons_append, grantAll, grantAll]
    cases S.grant size room d with
    | error e => rfl
    | ok room =>
      rw [List.map_cons, List.sum_cons, ← Nat.add_assoc]
      exact ih _ _

/-- The demands that a writer makes, and what it writes or the error that it stops with. -/
structure Layout (S : Supply δ κ ε) (β : Type) where
  demands : List δ
  out : Except ε (List β)
  length_out : ∀ {xs}, out = .ok xs → xs.length = (demands.map S.width).sum

namespace Layout

variable {S : Supply δ κ ε} {p q : Layout S β}

/-- The writer that is laid out. -/
def run (p : Layout S β) : Writing β κ ε PUnit := fun s ↦
  match S.grantAll s.written.length s.room p.demands with
  | .error e => .error e
  | .ok room =>
    match p.out with
    | .error e => .error e
    | .ok xs => .ok ((), ⟨s.written ++ xs, room⟩)

theorem run_no_room {s : Sink β κ} {e : ε}
    (h : S.grantAll s.written.length s.room p.demands = .error e) : p.run s = .error e := by
  rw [run, h]

theorem run_refused {s : Sink β κ} {room : κ} {e : ε}
    (h : S.grantAll s.written.length s.room p.demands = .ok room) (hout : p.out = .error e) :
    p.run s = .error e := by
  rw [run, h]
  show (match p.out with | .error e => _ | .ok xs => _) = _
  rw [hout]

theorem run_ok {s : Sink β κ} {room : κ} {xs : List β}
    (h : S.grantAll s.written.length s.room p.demands = .ok room) (hout : p.out = .ok xs) :
    p.run s = .ok ((), ⟨s.written ++ xs, room⟩) := by
  rw [run, h]
  show (match p.out with | .error e => _ | .ok xs => _) = _
  rw [hout]

/-- What a writer that returns has done. -/
theorem of_run {s s' : Sink β κ} {u : PUnit} (h : p.run s = .ok (u, s')) :
    ∃ xs, p.out = .ok xs ∧ s'.written = s.written ++ xs := by
  cases hroom : S.grantAll s.written.length s.room p.demands with
  | error e =>
    rw [run_no_room hroom] at h
    cases h
  | ok room =>
    cases hout : p.out with
    | error e =>
      rw [run_refused hroom hout] at h
      cases h
    | ok xs =>
      rw [run_ok hroom hout] at h
      cases h
      exact ⟨xs, rfl, rfl⟩

/-! ## Layouts of writers -/

/-- Nothing is written. -/
def nil : Layout S β := ⟨[], .ok [], fun h ↦ by cases h; rfl⟩

/-- One piece. -/
def one (d : δ) (xs : List β) (h : xs.length = S.width d) : Layout S β :=
  ⟨[d], .ok xs, fun heq ↦ by cases heq; simpa using h⟩

/-- The writer stops with an error after some demands. -/
def refuse (ds : List δ) (e : ε) : Layout S β := ⟨ds, .error e, fun h ↦ by cases h⟩

/-- One writer after the other; the second one does not run if the first one stops. -/
def append (p q : Layout S β) : Layout S β where
  demands :=
    match p.out with
    | .error _ => p.demands
    | .ok _ => p.demands ++ q.demands
  out :=
    match p.out with
    | .error e => .error e
    | .ok xs => q.out.map (xs ++ ·)
  length_out := by
    intro zs h
    split at h
    next => cases h
    next xs hp =>
      cases hq : q.out with
      | error e =>
        rw [hq] at h
        cases h
      | ok ys =>
        rw [hq] at h
        cases h
        rw [List.map_append, List.sum_append, ← p.length_out hp, ← q.length_out hq]
        exact List.length_append

/-- Writers one after the other. -/
def all (ps : List (Layout S β)) : Layout S β := ps.foldr append nil

/-- A header in front of what is written, which depends on how much there is. -/
def framed (d : δ) (header : ℕ → List β) (hheader : ∀ n, (header n).length = S.width d)
    (p : Layout S β) : Layout S β where
  demands := d :: p.demands
  out := p.out.map fun xs ↦ header (S.width d + xs.length) ++ xs
  length_out := by
    intro zs h
    cases hp : p.out with
    | error e =>
      rw [hp] at h
      cases h
    | ok xs =>
      rw [hp] at h
      cases h
      rw [List.length_append, hheader, p.length_out hp, List.map_cons, List.sum_cons]

theorem append_demands_ok {xs : List β} (h : p.out = .ok xs) :
    (p.append q).demands = p.demands ++ q.demands := by
  show (match p.out with | .error _ => _ | .ok _ => _) = _
  rw [h]

theorem append_demands_error {e : ε} (h : p.out = .error e) : (p.append q).demands = p.demands := by
  show (match p.out with | .error _ => _ | .ok _ => _) = _
  rw [h]

theorem append_out_ok {xs : List β} (h : p.out = .ok xs) :
    (p.append q).out = q.out.map (xs ++ ·) := by
  show (match p.out with | .error e => _ | .ok xs => _) = _
  rw [h]

theorem append_out_error {e : ε} (h : p.out = .error e) : (p.append q).out = .error e := by
  show (match p.out with | .error e => _ | .ok xs => _) = _
  rw [h]

/-- What both of two writers write. -/
theorem append_out_eq_ok {zs : List β} :
    (p.append q).out = .ok zs ↔ ∃ xs ys, p.out = .ok xs ∧ q.out = .ok ys ∧ zs = xs ++ ys := by
  constructor
  · intro h
    cases hp : p.out with
    | error e =>
      rw [append_out_error hp] at h
      cases h
    | ok xs =>
      rw [append_out_ok hp] at h
      cases hq : q.out with
      | error e =>
        rw [hq] at h
        cases h
      | ok ys =>
        rw [hq] at h
        cases h
        exact ⟨xs, ys, rfl, rfl, rfl⟩
  · rintro ⟨xs, ys, hp, hq, rfl⟩
    rw [append_out_ok hp, hq]
    rfl

/-- What all writers write. -/
theorem all_out_eq_ok {ps : List (Layout S β)} {zs : List β} :
    (all ps).out = .ok zs ↔ ∃ xss, List.Forall₂ (fun p xs ↦ p.out = .ok xs) ps xss ∧
    zs = xss.flatten := by
  induction ps generalizing zs with
  | nil =>
    constructor
    · intro h
      cases h
      exact ⟨[], .nil, rfl⟩
    · rintro ⟨xss, h, rfl⟩
      cases h
      rfl
  | cons p ps ih =>
    have hall : all (p :: ps) = p.append (all ps) := rfl
    rw [hall, append_out_eq_ok]
    constructor
    · rintro ⟨xs, ys, hp, hps, rfl⟩
      obtain ⟨xss, h, rfl⟩ := ih.mp hps
      exact ⟨xs :: xss, .cons hp h, rfl⟩
    · rintro ⟨xss, h, rfl⟩
      cases h with
      | @cons _ xs _ xss hp h => exact ⟨xs, xss.flatten, hp, ih.mpr ⟨xss, h, rfl⟩, rfl⟩

/-- All writers write, or one of them stops the others. -/
theorem all_out_cases (ps : List (Layout S β)) :
    (∀ p ∈ ps, ∃ xs, p.out = .ok xs) ∧ (∃ zs, (all ps).out = .ok zs) ∨
      ∃ p ∈ ps, ∃ e, p.out = .error e ∧ (all ps).out = .error e := by
  induction ps with
  | nil => exact .inl ⟨fun p hp ↦ (nomatch hp), [], rfl⟩
  | cons p ps ih =>
    have hall : all (p :: ps) = p.append (all ps) := rfl
    rw [hall]
    cases hp : p.out with
    | error e => exact .inr ⟨p, List.mem_cons_self, e, hp, append_out_error hp⟩
    | ok xs =>
      rw [append_out_ok hp]
      rcases ih with ⟨hps, zs, hzs⟩ | ⟨q, hq, e, he, hps⟩
      · rw [hzs]
        refine .inl ⟨fun q hq ↦ ?_, _, rfl⟩
        rcases List.mem_cons.mp hq with rfl | hq
        · exact ⟨xs, hp⟩
        · exact hps q hq
      · rw [hps]
        exact .inr ⟨q, List.mem_cons_of_mem _ hq, e, he, rfl⟩

theorem framed_out_eq_ok {d : δ} {header : ℕ → List β}
    {hheader : ∀ n, (header n).length = S.width d} {zs : List β} :
    (framed d header hheader p).out = .ok zs ↔
      ∃ xs, p.out = .ok xs ∧ zs = header (S.width d + xs.length) ++ xs := by
  show p.out.map _ = .ok zs ↔ _
  cases p.out with
  | error e =>
    constructor
    · intro h
      cases h
    · rintro ⟨xs, h, -⟩
      cases h
  | ok xs =>
    constructor
    · intro h
      cases h
      exact ⟨xs, rfl, rfl⟩
    · rintro ⟨ys, h, rfl⟩
      cases h
      rfl

/-! ## Writers that are laid out -/

theorem run_nil : (nil : Layout S β).run = pure () := by
  funext s
  have hrun : (nil : Layout S β).run s = .ok ((), ⟨s.written ++ [], s.room⟩) := rfl
  rw [hrun, List.append_nil]
  rfl

/-- Writers that run one after the other. -/
theorem run_append : (p.run >>= fun _ ↦ q.run) = (p.append q).run := by
  funext s
  cases hroom : S.grantAll s.written.length s.room p.demands with
  | error e =>
    rw [Writing.bind_error (run_no_room hroom)]
    cases hout : p.out with
    | error e' => rw [run_no_room (by rw [append_demands_error hout, hroom])]
    | ok xs => rw [run_no_room (by rw [append_demands_ok hout, S.grantAll_append, hroom])]
  | ok room =>
    cases hout : p.out with
    | error e =>
      rw [Writing.bind_error (run_refused hroom hout),
        run_refused (by rw [append_demands_error hout, hroom]) (append_out_error hout)]
    | ok xs =>
      have hgrant : S.grantAll s.written.length s.room (p.append q).demands =
          S.grantAll (s.written ++ xs).length room q.demands := by
        rw [append_demands_ok hout, S.grantAll_append, hroom, List.length_append, p.length_out hout]
      rw [Writing.bind_ok (run_ok hroom hout)]
      cases hroom' : S.grantAll (s.written ++ xs).length room q.demands with
      | error e => rw [run_no_room hroom', run_no_room (by rw [hgrant, hroom'])]
      | ok room' =>
        cases hout' : q.out with
        | error e =>
          rw [run_refused hroom' hout', run_refused (by rw [hgrant, hroom'])
            (by rw [append_out_ok hout, hout']; rfl)]
        | ok ys =>
          rw [run_ok hroom' hout', run_ok (by rw [hgrant, hroom'])
            (append_out_eq_ok.mpr ⟨xs, ys, hout, hout', rfl⟩), List.append_assoc]

/-- A loop. -/
theorem run_forM {α : Type} (f : α → Layout S β) (as : List α) :
    (as.forM fun a ↦ (f a).run) = (all (as.map f)).run := by
  induction as with
  | nil => exact run_nil.symm
  | cons a as ih =>
    show ((f a).run >>= fun _ ↦ as.forM fun a ↦ (f a).run) = _
    rw [ih, run_append]
    rfl

/-- A writer that goes back to put a header in front, for which it has left a place. -/
theorem run_framed {d : δ} {header : ℕ → List β} {hheader : ∀ n, (header n).length = S.width d}
    (place : List β) (hplace : place.length = S.width d) :
    (Writing.size >>= fun off ↦ (one d place hplace : Layout S β).run >>= fun _ ↦ p.run >>= fun _ ↦
      Writing.size >>= fun size ↦ Writing.patch off (header (size - off))) =
      (framed d header hheader p).run := by
  funext s
  rw [Writing.bind_ok (show Writing.size s = .ok (s.written.length, s) from rfl)]
  have hassoc : ((one d place hplace : Layout S β).run >>= fun _ ↦ p.run >>= fun _ ↦
      (Writing.size >>= fun size ↦ Writing.patch s.written.length
        (header (size - s.written.length)))) =
      ((one d place hplace).append p).run >>= fun _ ↦
        (Writing.size >>= fun size ↦ Writing.patch s.written.length
          (header (size - s.written.length))) := by
    rw [← run_append, bind_assoc]
  rw [hassoc]
  cases hroom : S.grantAll s.written.length s.room (framed d header hheader p).demands with
  | error e =>
    have hroom' : S.grantAll s.written.length s.room
        ((one d place hplace).append p).demands = .error e :=
      hroom
    rw [run_no_room hroom, Writing.bind_error (run_no_room hroom')]
  | ok room =>
    have hroom' : S.grantAll s.written.length s.room
        ((one d place hplace).append p).demands = .ok room :=
      hroom
    cases hout : p.out with
    | error e =>
      have hout' : (framed d header hheader p).out = .error e := by
        show p.out.map _ = _
        rw [hout]
        rfl
      have hout'' : ((one d place hplace).append p).out = .error e := by
        have hone : (one d place hplace : Layout S β).out = .ok place := rfl
        rw [append_out_ok hone, hout]
        rfl
      rw [run_refused hroom hout', Writing.bind_error (run_refused hroom' hout'')]
    | ok xs =>
      have hout' : ((one d place hplace).append p).out = .ok (place ++ xs) :=
        append_out_eq_ok.mpr ⟨place, xs, rfl, hout, rfl⟩
      rw [run_ok hroom (framed_out_eq_ok.mpr ⟨xs, hout, rfl⟩),
        Writing.bind_ok (run_ok hroom' hout')]
      have hsize : (s.written ++ (place ++ xs)).length - s.written.length = S.width d +
          xs.length := by
        rw [List.length_append, List.length_append, hplace, Nat.add_sub_cancel_left]
      have htake : (s.written ++ (place ++ xs)).take s.written.length = s.written := List.take_left
      have hdrop : (s.written ++ (place ++ xs)).drop (s.written.length + S.width d) = xs := by
        rw [← List.drop_drop, List.drop_left, List.drop_left' hplace]
      show Except.ok (_, Sink.mk (_ ++ header (_ - _) ++ _) room) = _
      rw [hsize, hheader, htake, hdrop, List.append_assoc]

end Layout

end Lib
