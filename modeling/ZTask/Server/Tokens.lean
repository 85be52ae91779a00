import ZTask.Lib.Actors
import ZTask.Server.Scheduler

/-!
# The scheduler's invariant

What an actor at a program point may rely on is written down as a multiset of tokens
(`Pc.tokens`), and `Inv` relates the shared memory to the tokens of all actors together:

- a queue is counted once for every place it is in, on the global list or in the hands of an
  actor, and the count is one when `inGlobal` or `release` is set and zero otherwise (`places`);
- the reference count of a context is the number of references held, the slot table's included
  (`CtxOk.ref`);
- a context whose count is zero is being deleted by exactly one actor (`CtxOk.del`), and its
  `calling` lock is taken exactly while an actor is between `CHECKCALLING_BEGIN` and
  `CHECKCALLING_END` (`CtxOk.calls`);
- the queue of a live context is not marked for release (`CtxOk.queue`), which is why a pop that
  finds it empty may let go of it.

The tokens of the actors that do not move are an arbitrary rest in every lemma below, so nothing
has to be said about interference.
-/

namespace ZTask

open Lib

/-! ## Tokens -/

/-- A claim of an actor on the shared blocks. -/
inductive Token
  /-- Has the queue in hand. -/
  | held (q : QueueId)
  /-- Dispatches the queue of a context it holds a reference to. -/
  | work (c : CtxId) (q : QueueId)
  /-- Like `work`, inside the callback. -/
  | running (c : CtxId) (q : QueueId)
  /-- Creates the service, with the creator's reference. -/
  | created (c : CtxId) (q : QueueId)
  /-- Like `created`, inside the initialiser. -/
  | starting (c : CtxId) (q : QueueId)
  /-- Creates the service, the creator's reference given up. -/
  | fresh (c : CtxId) (q : QueueId)
  /-- Like `fresh`, with the handle by which the context is to be retired. -/
  | retiring (c : CtxId) (q : QueueId) (handle : ℕ)
  /-- Has a queue in hand that is marked for release. -/
  | drop (q : QueueId)
  /-- Holds a reference. -/
  | ref (c : CtxId)
  /-- Has taken the reference count to zero. -/
  | del (c : CtxId)
deriving DecidableEq

namespace Token

/-- The token puts `q` into the hands of its holder. -/
def atQueue (q : QueueId) : Token → Bool
  | held q' | drop q' => q' = q
  | work _ q' | running _ q' | created _ q' | starting _ q' | fresh _ q' => q' = q
  | retiring _ q' _ => q' = q
  | ref _ | del _ => false

/-- The token is one of the references counted in `ctx->ref`. -/
def refs (c : CtxId) : Token → Bool
  | work c' _ | running c' _ | created c' _ | starting c' _ | ref c' => c' = c
  | held _ | fresh _ _ | retiring _ _ _ | drop _ | del _ => false

def dels (c : CtxId) : Token → Bool
  | del c' => c' = c
  | _ => false

/-- The holder is inside `CHECKCALLING_BEGIN` and `CHECKCALLING_END`. -/
def runs (c : CtxId) : Token → Bool
  | running c' _ | starting c' _ => c' = c
  | held _ | work _ _ | created _ _ | fresh _ _ | retiring _ _ _ | drop _ | ref _ | del _ => false

/-- The holder has yet to set `ctx->init`, or to retire the context. -/
def uninit (c : CtxId) (q : QueueId) : Token → Bool
  | created c' q' | starting c' q' | fresh c' q' | retiring c' q' _ => c' = c && q' = q
  | held _ | work _ _ | running _ _ | drop _ | ref _ | del _ => false

/-- What the holder knows about the blocks of its token, besides what is counted. -/
def Valid (s : Shared) : Token → Prop
  | work c q | running c q => ∃ x, s.ctx c = some x ∧ x.queue = q ∧ x.init = true
  | created c q | starting c q => ∃ x, s.ctx c = some x ∧ x.queue = q
  | retiring _ q handle => ∃ m, s.queues.mq q = some m ∧ m.handle = handle
  | drop q => ∃ m, s.queues.mq q = some m ∧ m.release = true
  | held _ | fresh _ _ | ref _ | del _ => True

@[simp] theorem atQueue_held (q q' : QueueId) : (held q').atQueue q = decide (q' = q) := rfl

@[simp] theorem atQueue_work (q q' : QueueId) (c : CtxId) :
    (work c q').atQueue q = decide (q' = q) := rfl

@[simp] theorem atQueue_running (q q' : QueueId) (c : CtxId) :
    (running c q').atQueue q = decide (q' = q) := rfl

@[simp] theorem atQueue_created (q q' : QueueId) (c : CtxId) :
    (created c q').atQueue q = decide (q' = q) := rfl

@[simp] theorem atQueue_starting (q q' : QueueId) (c : CtxId) :
    (starting c q').atQueue q = decide (q' = q) := rfl

@[simp] theorem atQueue_fresh (q q' : QueueId) (c : CtxId) :
    (fresh c q').atQueue q = decide (q' = q) := rfl

@[simp] theorem atQueue_retiring (q q' : QueueId) (c : CtxId) (handle : ℕ) :
    (retiring c q' handle).atQueue q = decide (q' = q) := rfl

@[simp] theorem atQueue_drop (q q' : QueueId) : (drop q').atQueue q = decide (q' = q) := rfl

@[simp] theorem atQueue_ref (q : QueueId) (c : CtxId) : (ref c).atQueue q = false := rfl

@[simp] theorem atQueue_del (q : QueueId) (c : CtxId) : (del c).atQueue q = false := rfl

theorem atQueue_of_uninit {c : CtxId} {q : QueueId} {tk : Token} (h : tk.uninit c q = true) :
    tk.atQueue q = true := by
  cases tk with
  | created c' q' | starting c' q' | fresh c' q' | retiring c' q' handle =>
    exact (Bool.and_eq_true_iff.mp h).2
  | held _ | work _ _ | running _ _ | drop _ | ref _ | del _ => cases h

end Token

/-- The tokens of an actor at a program point. -/
def Pc.tokens : Pc → Multiset Token
  | idle | popGlobal _ => 0
  | grabHandle _ q => {.held q}
  | popMessage _ q c _ _ | readLength _ q c _ | handleMessage _ q c _ _ => {.work c q}
  | callback _ q c _ _ => {.running c q}
  | pushBack _ q c nq => .work c q ::ₘ {.held nq}
  | mqRelease q k => .held q ::ₘ k.tokens
  | dropMessage q k | freeQueue q k => .drop q ::ₘ k.tokens
  | release c k => .ref c ::ₘ k.tokens
  | deleteContext c k => .del c ::ₘ k.tokens
  | pushMessage c _ | reserved c => {.ref c}
  | beginInit c q | initDone c q | initFailed c q => {.created c q}
  | initialise c q => {.starting c q}
  | setInit c q => {.fresh c q}
  | retireNew c q handle => {.retiring c q handle}
  | publish q => {.held q}

/-! ## The invariant -/

/-- In how many places a queue is: one while a flag says so, else none. -/
def Queues.expected (s : Queues) (q : QueueId) : ℕ :=
  match s.mq q with
  | none => 0
  | some m => if m.inGlobal ∨ m.release then 1 else 0

/-- The state of one allocated context. -/
structure CtxOk (s : Shared) (T : Multiset Token) (c : CtxId) (x : Context) : Prop where
  ref : x.ref = (if s.table x.handle = some c then 1 else 0) + T.countP (Token.refs c ·)
  del : T.countP (Token.dels c ·) = if x.ref = 0 then 1 else 0
  calls : T.countP (Token.runs c ·) = if x.calling then 1 else 0
  queue : ∃ m, s.queues.mq x.queue = some m ∧ m.handle = x.handle ∧ m.release = false
  init : x.init = false → s.table x.handle = some c → ∃ tk ∈ T, tk.uninit c x.queue = true

/-- The shared memory agrees with the global list `L` and the tokens `T`. -/
structure Inv (s : Shared) (L : List QueueId) (T : Multiset Token) : Prop where
  repr : s.queues.global.Represents L
  places : ∀ q, L.count q + T.countP (Token.atQueue q ·) = s.queues.expected q
  ctxOk : ∀ {c x}, s.ctx c = some x → CtxOk s T c x
  ctxNone : ∀ {c}, s.ctx c = none →
    T.countP (Token.refs c ·) = 0 ∧ T.countP (Token.dels c ·) = 0
  table : ∀ {h c}, s.table h = some c → ∃ x, s.ctx c = some x ∧ x.handle = h
  queueInj : ∀ {c c' x x'}, s.ctx c = some x → s.ctx c' = some x' → x.queue = x'.queue → c = c'
  handleInj : ∀ {q q' m m'}, s.queues.mq q = some m → s.queues.mq q' = some m' →
    m.handle = m'.handle → q = q'
  quiet : ∀ {q m}, s.queues.mq q = some m → m.inGlobal = false → m.release = false →
    m.ring.toList = []
  valid : ∀ tk ∈ T, Token.Valid s tk

theorem Queues.expected_le_one (s : Queues) (q : QueueId) : s.expected q ≤ 1 := by
  rw [expected]
  split
  · omega
  · split <;> omega

theorem Queues.expected_congr {s s' : Queues} {q : QueueId} (h : s'.mq q = s.mq q) :
    s'.expected q = s.expected q := by
  rw [expected, expected, h]

theorem Queues.expected_eq_one {s : Queues} {q : QueueId} {m : MessageQueue} (h : s.mq q = some m)
    (hf : m.inGlobal = true ∨ m.release = true) : s.expected q = 1 := by
  rw [expected, h]
  exact if_pos hf

theorem Queues.expected_eq_zero {s : Queues} {q : QueueId} {m : MessageQueue}
    (h : s.mq q = some m) (hg : m.inGlobal = false) (hr : m.release = false) :
    s.expected q = 0 := by
  simp [expected, h, hg, hr]

namespace Inv

variable {s : Shared} {L : List QueueId} {T : Multiset Token} {c : CtxId} {q : QueueId}

theorem valid_head {tk : Token} (h : Inv s L (tk ::ₘ T)) : tk.Valid s :=
  h.valid tk (Multiset.mem_cons_self tk T)

theorem valid_tail {tk : Token} (h : Inv s L (tk ::ₘ T)) : ∀ tk' ∈ T, Token.Valid s tk' :=
  fun tk' htk' ↦ h.valid tk' (Multiset.mem_cons_of_mem htk')

/-- A queue in somebody's hands is allocated, is not on the global list, and one of its flags is
set. -/
theorem of_atQueue {tk : Token} (h : Inv s L (tk ::ₘ T)) (hat : tk.atQueue q = true) :
    q ∉ L ∧ T.countP (Token.atQueue q ·) = 0 ∧
      ∃ m, s.queues.mq q = some m ∧ (m.inGlobal = true ∨ m.release = true) := by
  have hp := h.places q
  have hle := s.queues.expected_le_one q
  rw [Multiset.countP_cons, if_pos hat] at hp
  refine ⟨List.count_eq_zero.mp (by omega), by omega, ?_⟩
  cases hm : s.queues.mq q with
  | none =>
    rw [Queues.expected, hm] at hp
    simp at hp
  | some m =>
    refine ⟨m, rfl, ?_⟩
    by_contra hno
    simp only [Queues.expected, hm, if_neg hno] at hp
    omega

theorem of_refs {tk : Token} (h : Inv s L (tk ::ₘ T)) (hr : tk.refs c = true) :
    ∃ x, s.ctx c = some x ∧ 0 < x.ref := by
  cases hx : s.ctx c with
  | none =>
    have h0 := (h.ctxNone hx).1
    rw [Multiset.countP_cons, if_pos hr] at h0
    omega
  | some x =>
    have := (h.ctxOk hx).ref
    rw [Multiset.countP_cons, if_pos hr] at this
    exact ⟨x, rfl, by omega⟩

/-- The service of a queue in a worker's hands has been initialised, as long as its handle is
registered: the creator would have the queue in hand, too. -/
theorem init_of_atQueue {tk : Token} {x : Context} (h : Inv s L (tk ::ₘ T)) (hx : s.ctx c = some x)
    (hat : tk.atQueue x.queue = true) (hun : tk.uninit c x.queue = false)
    (ht : s.table x.handle = some c) : x.init = true := by
  by_contra hi
  obtain ⟨tk', hmem, htk'⟩ := (h.ctxOk hx).init (by simpa using hi) ht
  have h0 := (h.of_atQueue hat).2.1
  rcases Multiset.mem_cons.mp hmem with rfl | hmem
  · rw [hun] at htk'
    cases htk'
  · exact Multiset.countP_eq_zero.mp h0 tk' hmem (Token.atQueue_of_uninit htk')

end Inv

/-! ## Trading tokens -/

/-- `B` claims of the context `c` what `A` claims of it. -/
structure SameClaims (c : CtxId) (A B : Multiset Token) : Prop where
  refs : B.countP (Token.refs c ·) = A.countP (Token.refs c ·)
  dels : B.countP (Token.dels c ·) = A.countP (Token.dels c ·)
  runs : B.countP (Token.runs c ·) = A.countP (Token.runs c ·)
  uninit : ∀ q, (∃ tk ∈ A, tk.uninit c q = true) → ∃ tk ∈ B, tk.uninit c q = true

namespace SameClaims

variable {c : CtxId} {A B : Multiset Token}

theorem refl (c : CtxId) (A : Multiset Token) : SameClaims c A A :=
  ⟨rfl, rfl, rfl, fun _ h ↦ h⟩

theorem trans {D : Multiset Token} (h : SameClaims c A B) (h' : SameClaims c B D) :
    SameClaims c A D :=
  ⟨h'.refs.trans h.refs, h'.dels.trans h.dels, h'.runs.trans h.runs,
    fun q hq ↦ h'.uninit q (h.uninit q hq)⟩

theorem cons {a b : Token} (T : Multiset Token) (hr : b.refs c = a.refs c)
    (hd : b.dels c = a.dels c) (hn : b.runs c = a.runs c)
    (hu : ∀ q, a.uninit c q = true → b.uninit c q = true) : SameClaims c (a ::ₘ T) (b ::ₘ T) where
  refs := by rw [Multiset.countP_cons, Multiset.countP_cons, hr]
  dels := by rw [Multiset.countP_cons, Multiset.countP_cons, hd]
  runs := by rw [Multiset.countP_cons, Multiset.countP_cons, hn]
  uninit := by
    rintro q ⟨tk, hmem, htk⟩
    rcases Multiset.mem_cons.mp hmem with rfl | hmem
    · exact ⟨b, Multiset.mem_cons_self _ _, hu q htk⟩
    · exact ⟨tk, Multiset.mem_cons_of_mem hmem, htk⟩

theorem add {a : Token} (T : Multiset Token) (hr : a.refs c = false) (hd : a.dels c = false)
    (hn : a.runs c = false) : SameClaims c T (a ::ₘ T) where
  refs := Multiset.countP_cons_of_neg T (by simp [hr])
  dels := Multiset.countP_cons_of_neg T (by simp [hd])
  runs := Multiset.countP_cons_of_neg T (by simp [hn])
  uninit := fun _ ⟨tk, hmem, htk⟩ ↦ ⟨tk, Multiset.mem_cons_of_mem hmem, htk⟩

theorem drop {a : Token} (T : Multiset Token) (hr : a.refs c = false) (hd : a.dels c = false)
    (hn : a.runs c = false) (hu : ∀ q, a.uninit c q = false) : SameClaims c (a ::ₘ T) T where
  refs := (Multiset.countP_cons_of_neg T (by simp [hr])).symm
  dels := (Multiset.countP_cons_of_neg T (by simp [hd])).symm
  runs := (Multiset.countP_cons_of_neg T (by simp [hn])).symm
  uninit := by
    rintro q ⟨tk, hmem, htk⟩
    rcases Multiset.mem_cons.mp hmem with rfl | hmem
    · rw [hu] at htk
      cases htk
    · exact ⟨tk, hmem, htk⟩

end SameClaims

theorem CtxOk.congr {s s' : Shared} {T T' : Multiset Token} {c : CtxId} {x : Context}
    (h : CtxOk s T c x) (ht : s'.table x.handle = some c ↔ s.table x.handle = some c)
    (hT : SameClaims c T T')
    (hq : ∀ m, s.queues.mq x.queue = some m →
      ∃ m', s'.queues.mq x.queue = some m' ∧ m'.handle = m.handle ∧ m'.release = m.release) :
    CtxOk s' T' c x where
  ref := by simp only [ht, hT.refs, ← h.ref]
  del := by rw [hT.dels, h.del]
  calls := by rw [hT.runs, h.calls]
  queue := by
    obtain ⟨m, hm, hh, hr⟩ := h.queue
    obtain ⟨m', hm', hh', hr'⟩ := hq m hm
    exact ⟨m', hm', hh'.trans hh, hr'.trans hr⟩
  init := fun hi htab ↦ hT.uninit _ (h.init hi (ht.mp htab))

theorem Token.Valid.mono {s s' : Shared} {tk : Token} (h : tk.Valid s)
    (hc : ∀ c x, tk.refs c = true → s.ctx c = some x → s'.ctx c = some x)
    (hq : ∀ q m, tk.atQueue q = true → s.queues.mq q = some m → ∃ m', s'.queues.mq q = some m' ∧
      m'.handle = m.handle ∧ (m.release = true → m'.release = true)) : tk.Valid s' := by
  cases tk with
  | drop q =>
    obtain ⟨m, hm, hr⟩ := h
    obtain ⟨m', hm', -, hr'⟩ := hq q m (decide_eq_true rfl) hm
    exact ⟨m', hm', hr' hr⟩
  | retiring c q handle =>
    obtain ⟨m, hm, hh⟩ := h
    obtain ⟨m', hm', hh', -⟩ := hq q m (decide_eq_true rfl) hm
    exact ⟨m', hm', hh'.trans hh⟩
  | work c q | running c q | created c q | starting c q =>
    obtain ⟨x, hx, hv⟩ := h
    exact ⟨x, hc c x (decide_eq_true rfl) hx, hv⟩
  | held q | fresh c q | ref c | del c => trivial

theorem Token.Valid.congr {s s' : Shared} {tk : Token} (h : tk.Valid s) (hc : s'.ctx = s.ctx)
    (hq : ∀ q m, s.queues.mq q = some m → ∃ m', s'.queues.mq q = some m' ∧
      m'.handle = m.handle ∧ (m.release = true → m'.release = true)) : tk.Valid s' :=
  h.mono (fun c x _ hx ↦ by rw [hc, hx]) fun q m _ hm ↦ hq q m hm

/-! ## Keys of blocks -/

section Keys

variable {α β κ : Type} {f f' : α → Option β} {key : β → κ} {a a₁ a₂ : α} {b b₁ b₂ : β}

/-- Keys stay distinct when a block with a new key is added. -/
theorem key_inj_add [DecidableEq α]
    (hinj : ∀ {a₁ a₂ b₁ b₂}, f a₁ = some b₁ → f a₂ = some b₂ → key b₁ = key b₂ → a₁ = a₂)
    (hnew : ∀ {a' b'}, f a' = some b' → key b' ≠ key b)
    (h₁ : Function.update f a (some b) a₁ = some b₁)
    (h₂ : Function.update f a (some b) a₂ = some b₂) (he : key b₁ = key b₂) : a₁ = a₂ := by
  by_cases hn₁ : a₁ = a <;> by_cases hn₂ : a₂ = a
  · rw [hn₁, hn₂]
  · rw [hn₁, Function.update_self, Option.some.injEq] at h₁
    rw [Function.update_of_ne hn₂] at h₂
    exact absurd (he.symm.trans (congrArg key h₁.symm)) (hnew h₂)
  · rw [hn₂, Function.update_self, Option.some.injEq] at h₂
    rw [Function.update_of_ne hn₁] at h₁
    exact absurd (he.trans (congrArg key h₂.symm)) (hnew h₁)
  · rw [Function.update_of_ne hn₁] at h₁
    rw [Function.update_of_ne hn₂] at h₂
    exact hinj h₁ h₂ he

/-- Keys stay distinct when blocks go, or change without their keys. -/
theorem key_inj_keep
    (hinj : ∀ {a₁ a₂ b₁ b₂}, f a₁ = some b₁ → f a₂ = some b₂ → key b₁ = key b₂ → a₁ = a₂)
    (hkeep : ∀ {a b}, f' a = some b → ∃ b₀, f a = some b₀ ∧ key b₀ = key b)
    (h₁ : f' a₁ = some b₁) (h₂ : f' a₂ = some b₂) (he : key b₁ = key b₂) : a₁ = a₂ := by
  obtain ⟨n₁, hn₁, he₁⟩ := hkeep h₁
  obtain ⟨n₂, hn₂, he₂⟩ := hkeep h₂
  exact hinj hn₁ hn₂ (by rw [he₁, he₂, he])

end Keys

namespace Inv

variable {s : Shared} {L L' : List QueueId} {T T' : Multiset Token}

/-- A step on the queues that keeps every block allocated, with its handle and its release flag.
This covers all sections under a queue's lock but the two that end a service. -/
theorem onQueues (h : Inv s L T) {queues : Queues} (hrepr : queues.global.Represents L')
    (hplaces : ∀ q, L'.count q + T'.countP (Token.atQueue q ·) = queues.expected q)
    (hkeep : ∀ q, (queues.mq q).map (fun m ↦ (m.handle, m.release))
      = (s.queues.mq q).map fun m ↦ (m.handle, m.release))
    (hquiet : ∀ q m, queues.mq q = some m → m.inGlobal = false → m.release = false →
      m.ring.toList = [])
    (hT : ∀ c, SameClaims c T T') (hvalid : ∀ tk ∈ T', Token.Valid { s with queues := queues } tk) :
    Inv { s with queues := queues } L' T' := by
  have hfwd : ∀ q m, s.queues.mq q = some m →
      ∃ m', queues.mq q = some m' ∧ m'.handle = m.handle ∧ m'.release = m.release := by
    intro q m hm
    have := hkeep q
    rw [hm] at this
    obtain ⟨m', hm', he⟩ := Option.map_eq_some_iff.mp this
    exact ⟨m', hm', congrArg Prod.fst he, congrArg Prod.snd he⟩
  have hbwd : ∀ q m', queues.mq q = some m' → ∃ m, s.queues.mq q = some m ∧
      m.handle = m'.handle := by
    intro q m' hm'
    have := (hkeep q).symm
    rw [hm'] at this
    obtain ⟨m, hm, he⟩ := Option.map_eq_some_iff.mp this
    exact ⟨m, hm, congrArg Prod.fst he⟩
  refine ⟨hrepr, hplaces, ?_, ?_, h.table, h.queueInj, ?_, ?_, hvalid⟩
  · intro c x hx
    exact (h.ctxOk hx).congr Iff.rfl (hT c) fun m hm ↦ hfwd _ m hm
  · intro c hc
    rw [(hT c).refs, (hT c).dels]
    exact h.ctxNone hc
  · intro q q' m m' hm hm' hh
    obtain ⟨n, hn, hnh⟩ := hbwd q m hm
    obtain ⟨n', hn', hnh'⟩ := hbwd q' m' hm'
    exact h.handleInj hn hn' (by rw [hnh, hnh', hh])
  · intro q m hm
    exact hquiet q m hm

theorem retoken (h : Inv s L T)
    (hat : ∀ q, T'.countP (Token.atQueue q ·) = T.countP (Token.atQueue q ·))
    (hT : ∀ c, SameClaims c T T') (hvalid : ∀ tk ∈ T', Token.Valid s tk) : Inv s L T' := by
  have hplaces : ∀ q, L.count q + T'.countP (Token.atQueue q ·) = s.queues.expected q := by
    intro q
    rw [hat, h.places]
  exact h.onQueues h.repr hplaces (fun _ ↦ rfl) (fun _ _ ↦ h.quiet) hT hvalid

end Inv

end ZTask
