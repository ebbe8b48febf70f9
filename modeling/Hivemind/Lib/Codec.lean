import Mathlib.Data.List.Basic
import Mathlib.Data.List.Forall2
import Mathlib.Algebra.Order.BigOperators.Group.List
import Mathlib.Tactic.Ring
import Mathlib.Tactic.Linarith

/-!
# Byte codecs

A small library of stream codecs.  A codec writes a value as bytes and reads it back from the
front of a byte stream; it carries the relation `Enc` between a value and the byte strings its
reader accepts for it, together with the laws that tie the three parts to each other.  Records
are built from fixed-width fields, strings and counted vectors with `Codec.prod` and `Codec.vec`,
and inherit the laws.

A reader may accept more than its writer writes (a byte of a boolean, a field that is skipped),
and a writer may write what its reader refuses (a vector that is too long).  `Enc` is what lets
both be said: a value *fits* when its own encoding is accepted, and a codec is *canonical* when
nothing else is.

* `Codec.de_ser`: what fits is read back, with the rest of the stream untouched.
* `Codec.de_ser_ok_iff`: *only* what fits is read back.
* `Codec.de_isOk_iff`: a reader succeeds exactly on the streams with an encoding in front.
* `fits_vec`, `fits_prod`: fitting is decided field by field.
* `Codec.Canonical.eq_append_of_de`: a canonical reader accepts nothing but what is written.
* `Sink`: a stream that is written to in pieces; one that keeps the bytes and one that only
  counts them take in the same encodings.
* `View.de_ser`, `View.fits_of_de`: a record with a field list comes back as its stored form,
  which is what is left of it when the fields that are not written are at their defaults.
-/

namespace Codecs

/-- A byte string. -/
abbrev Bytes := List UInt8

/-- Why a stream read fails. -/
inductive ReadError where
  | endOfData
  | nonCanonicalSize
  | sizeTooLarge
  deriving DecidableEq, Repr

/-- A reader consumes a stream from the front. -/
abbrev Reader (α : Type) := Bytes → Except ReadError (α × Bytes)

/-! ## Little-endian numbers -/

/-- The `w` little-endian bytes of `n` (the low `8 * w` bits). -/
def leBytes : Nat → Nat → Bytes
  | 0, _ => []
  | w + 1, n => UInt8.ofNat n :: leBytes w (n / 256)

/-- The number whose little-endian bytes are given. -/
def leNat : Bytes → Nat
  | [] => 0
  | b :: bs => b.toNat + 256 * leNat bs

@[simp] theorem length_leBytes (w n : Nat) : (leBytes w n).length = w := by
  induction w generalizing n with
  | zero => rfl
  | succ w ih => simp [leBytes, ih]

theorem leNat_lt (bs : Bytes) : leNat bs < 256 ^ bs.length := by
  induction bs with
  | nil => simp [leNat]
  | cons b bs ih =>
      have hb := b.toNat_lt
      rw [leNat, List.length_cons, pow_succ]
      omega

theorem leNat_leBytes (w n : Nat) : leNat (leBytes w n) = n % 256 ^ w := by
  induction w generalizing n with
  | zero => simp [leBytes, leNat, Nat.mod_one]
  | succ w ih =>
      rw [leBytes, leNat, ih, pow_succ, mul_comm (256 ^ w), Nat.mod_mul]
      simp

theorem leNat_leBytes_of_lt {w n : Nat} (h : n < 256 ^ w) : leNat (leBytes w n) = n := by
  rw [leNat_leBytes, Nat.mod_eq_of_lt h]

theorem leBytes_leNat (bs : Bytes) : leBytes bs.length (leNat bs) = bs := by
  induction bs with
  | nil => rfl
  | cons b bs ih =>
      have hb := b.toNat_lt
      have hdiv : (b.toNat + 256 * leNat bs) / 256 = leNat bs := by omega
      have hhead : UInt8.ofNat (b.toNat + 256 * leNat bs) = b := by
        apply UInt8.toNat_inj.mp
        rw [UInt8.toNat_ofNat']
        omega
      rw [List.length_cons, leNat, leBytes, hdiv, hhead, ih]

/-! ## Codecs -/

/-- A writer and a reader of one type.  `Enc x e` says that the reader accepts
the bytes `e` as `x`; the writer's own output is the shape every accepted
encoding of `x` has, unless `x` has no encoding at all. -/
structure Codec (α : Type) where
  ser : α → Bytes
  de : Reader α
  Enc : α → Bytes → Prop
  de_ok : ∀ {s x r}, de s = .ok (x, r) ↔ ∃ e, s = e ++ r ∧ Enc x e
  enc_ser : ∀ {x e}, Enc x e → Enc x (ser x)
  enc_length : ∀ {x e}, Enc x e → e.length = (ser x).length

namespace Codec

variable {α β : Type} (c : Codec α)

/-- A value fits a codec when its own encoding is accepted. -/
def Fits (x : α) : Prop := c.Enc x (c.ser x)

/-- Some front part of the stream is an encoding. -/
def Complete (s : Bytes) : Prop := ∃ x e r, s = e ++ r ∧ c.Enc x e

variable {c}

theorem de_ser {x : α} (h : c.Fits x) (r : Bytes) : c.de (c.ser x ++ r) = .ok (x, r) :=
  c.de_ok.mpr ⟨c.ser x, rfl, h⟩

theorem fits_of_de {s r : Bytes} {x : α} (h : c.de s = .ok (x, r)) : c.Fits x := by
  obtain ⟨e, -, he⟩ := c.de_ok.mp h
  exact c.enc_ser he

/-- **Only what fits is read back**: a value comes back from its own encoding
exactly when it fits. -/
theorem de_ser_ok_iff {x : α} {r : Bytes} :
    (∃ r', c.de (c.ser x ++ r) = .ok (x, r')) ↔ c.Fits x :=
  ⟨fun ⟨_, h⟩ => fits_of_de h, fun h => ⟨r, de_ser h r⟩⟩

theorem eq_of_ser_eq {x y : α} (hx : c.Fits x) (hy : c.Fits y) (h : c.ser x = c.ser y) : x = y := by
  have hde := de_ser hx []
  rw [h, de_ser hy []] at hde
  simp only [Except.ok.injEq, Prod.mk.injEq, and_true] at hde
  exact hde.symm

theorem length_of_de {s r : Bytes} {x : α} (h : c.de s = .ok (x, r)) :
    s.length = (c.ser x).length + r.length := by
  obtain ⟨e, rfl, he⟩ := c.de_ok.mp h
  rw [List.length_append, c.enc_length he]

/-- A reader succeeds exactly on the complete streams. -/
theorem de_isOk_iff {s : Bytes} : (∃ p, c.de s = .ok p) ↔ c.Complete s := by
  constructor
  · rintro ⟨⟨x, r⟩, h⟩
    obtain ⟨e, hs, he⟩ := c.de_ok.mp h
    exact ⟨x, e, r, hs, he⟩
  · rintro ⟨x, e, r, hs, he⟩
    exact ⟨(x, r), c.de_ok.mpr ⟨e, hs, he⟩⟩

/-! ## Fixed-width fields -/

/-- Take exactly `w` bytes off the stream. -/
def readBytes (w : Nat) : Reader Bytes := fun s =>
  if w ≤ s.length then .ok (s.take w, s.drop w) else .error .endOfData

theorem readBytes_ok {w : Nat} {s b r : Bytes} :
    readBytes w s = .ok (b, r) ↔ s = b ++ r ∧ b.length = w := by
  unfold readBytes
  by_cases hw : w ≤ s.length
  · rw [if_pos hw]
    constructor
    · intro h
      simp only [Except.ok.injEq, Prod.mk.injEq] at h
      obtain ⟨rfl, rfl⟩ := h
      exact ⟨(List.take_append_drop w s).symm, by simp [hw]⟩
    · rintro ⟨rfl, rfl⟩
      simp
  · rw [if_neg hw]
    constructor
    · intro h
      cases h
    · rintro ⟨rfl, rfl⟩
      simp at hw

/-- A field of constant width `w`, given by its two conversions. -/
def fixed (w : Nat) (toB : α → Bytes) (ofB : Bytes → α) (len : ∀ x, (toB x).length = w)
    (left : ∀ x, ofB (toB x) = x) (right : ∀ b, b.length = w → toB (ofB b) = b) : Codec α where
  ser := toB
  de := fun s => (readBytes w s).map fun p => (ofB p.1, p.2)
  Enc := fun x e => e = toB x
  de_ok := by
    intro s x r
    cases h : readBytes w s with
    | error e =>
        constructor
        · intro h'
          cases h'
        · rintro ⟨e', rfl, rfl⟩
          rw [readBytes_ok.mpr ⟨rfl, len x⟩] at h
          cases h
    | ok p =>
        obtain ⟨b, r'⟩ := p
        obtain ⟨rfl, hb⟩ := readBytes_ok.mp h
        constructor
        · intro h'
          simp only [Except.map, Except.ok.injEq, Prod.mk.injEq] at h'
          obtain ⟨rfl, rfl⟩ := h'
          exact ⟨b, rfl, (right b hb).symm⟩
        · rintro ⟨e, hs, rfl⟩
          obtain ⟨rfl, rfl⟩ := List.append_inj hs (by rw [hb, len])
          simp [Except.map, left]
  enc_ser := fun _ => rfl
  enc_length := fun h => by rw [h]

/-- Unsigned and signed machine integers, least significant byte first. -/
def u8 : Codec UInt8 :=
  fixed 1 (fun x => [x]) (fun b => b.headD 0) (fun _ => rfl) (fun _ => rfl) (by
    intro b hb
    match b, hb with
    | [x], _ => rfl)

def u16 : Codec UInt16 :=
  fixed 2 (fun x => leBytes 2 x.toNat) (fun b => UInt16.ofNat (leNat b)) (fun _ => length_leBytes ..)
    (fun x => by rw [leNat_leBytes_of_lt (by simpa using x.toNat_lt), UInt16.ofNat_toNat])
    (fun b hb => by
      have hlt : leNat b < 65536 := by simpa [hb] using leNat_lt b
      rw [UInt16.toNat_ofNat_of_lt' hlt]
      simpa [hb] using leBytes_leNat b)

def u32 : Codec UInt32 :=
  fixed 4 (fun x => leBytes 4 x.toNat) (fun b => UInt32.ofNat (leNat b)) (fun _ => length_leBytes ..)
    (fun x => by rw [leNat_leBytes_of_lt (by simpa using x.toNat_lt), UInt32.ofNat_toNat])
    (fun b hb => by
      have hlt : leNat b < 4294967296 := by simpa [hb] using leNat_lt b
      rw [UInt32.toNat_ofNat_of_lt' hlt]
      simpa [hb] using leBytes_leNat b)

def u64 : Codec UInt64 :=
  fixed 8 (fun x => leBytes 8 x.toNat) (fun b => UInt64.ofNat (leNat b)) (fun _ => length_leBytes ..)
    (fun x => by rw [leNat_leBytes_of_lt (by simpa using x.toNat_lt), UInt64.ofNat_toNat])
    (fun b hb => by
      have hlt : leNat b < 18446744073709551616 := by simpa [hb] using leNat_lt b
      rw [UInt64.toNat_ofNat_of_lt' hlt]
      simpa [hb] using leBytes_leNat b)

def i64 : Codec Int64 :=
  fixed 8 (fun x => u64.ser x.toUInt64) (fun b => (UInt64.ofNat (leNat b)).toInt64)
    (fun _ => length_leBytes ..)
    (fun x => by
      show (UInt64.ofNat (leNat (leBytes 8 x.toUInt64.toNat))).toInt64 = x
      rw [leNat_leBytes_of_lt (by simpa using x.toUInt64.toNat_lt), UInt64.ofNat_toNat,
        Int64.toInt64_toUInt64])
    (fun b hb => by
      have hlt : leNat b < 18446744073709551616 := by simpa [hb] using leNat_lt b
      show leBytes 8 (UInt64.ofNat (leNat b)).toInt64.toUInt64.toNat = b
      rw [UInt64.toUInt64_toInt64, UInt64.toNat_ofNat_of_lt' hlt]
      simpa [hb] using leBytes_leNat b)

def i32 : Codec Int32 :=
  fixed 4 (fun x => u32.ser x.toUInt32) (fun b => (UInt32.ofNat (leNat b)).toInt32)
    (fun _ => length_leBytes ..)
    (fun x => by
      show (UInt32.ofNat (leNat (leBytes 4 x.toUInt32.toNat))).toInt32 = x
      rw [leNat_leBytes_of_lt (by simpa using x.toUInt32.toNat_lt), UInt32.ofNat_toNat,
        Int32.toInt32_toUInt32])
    (fun b hb => by
      have hlt : leNat b < 4294967296 := by simpa [hb] using leNat_lt b
      show leBytes 4 (UInt32.ofNat (leNat b)).toInt32.toUInt32.toNat = b
      rw [UInt32.toUInt32_toInt32, UInt32.toNat_ofNat_of_lt' hlt]
      simpa [hb] using leBytes_leNat b)

@[simp] theorem fits_u8 (x : UInt8) : u8.Fits x := rfl
@[simp] theorem fits_u16 (x : UInt16) : u16.Fits x := rfl
@[simp] theorem fits_u32 (x : UInt32) : u32.Fits x := rfl
@[simp] theorem fits_u64 (x : UInt64) : u64.Fits x := rfl
@[simp] theorem fits_i32 (x : Int32) : i32.Fits x := rfl
@[simp] theorem fits_i64 (x : Int64) : i64.Fits x := rfl

/-- A byte that is written as `t` and whose value is not looked at when read. -/
def tag (t : UInt8) : Codec Unit where
  ser := fun _ => [t]
  de := fun s => match s with
    | [] => .error .endOfData
    | _ :: r => .ok ((), r)
  Enc := fun _ e => e.length = 1
  de_ok := by
    intro s x r
    cases s with
    | nil => simp
    | cons b s =>
        constructor
        · intro h
          simp only [Except.ok.injEq, Prod.mk.injEq, true_and] at h
          exact ⟨[b], by simp [h], rfl⟩
        · rintro ⟨e, hs, he⟩
          obtain ⟨a, rfl⟩ := List.length_eq_one_iff.mp he
          simp only [List.singleton_append, List.cons.injEq] at hs
          rw [hs.2]
  enc_ser := fun _ => rfl
  enc_length := fun h => h

@[simp] theorem fits_tag (t : UInt8) (u : Unit) : (tag t).Fits u := rfl

/-- A boolean: one byte, and every byte but zero is read as `true`. -/
def bool : Codec Bool where
  ser := fun b => [if b then 1 else 0]
  de := fun s => match s with
    | [] => .error .endOfData
    | b :: r => .ok (b != 0, r)
  Enc := fun x e => ∃ b, e = [b] ∧ x = (b != 0)
  de_ok := by
    intro s x r
    cases s with
    | nil => simp
    | cons b s =>
        constructor
        · intro h
          simp only [Except.ok.injEq, Prod.mk.injEq] at h
          exact ⟨[b], by simp [h.2], b, rfl, h.1.symm⟩
        · rintro ⟨e, hs, b', rfl, rfl⟩
          simp only [List.singleton_append, List.cons.injEq] at hs
          rw [hs.1, hs.2]
  enc_ser := fun {x _} _ => ⟨_, rfl, by cases x <;> rfl⟩
  enc_length := by
    rintro x e ⟨b, rfl, -⟩
    rfl

@[simp] theorem fits_bool (x : Bool) : bool.Fits x := ⟨_, rfl, by cases x <;> rfl⟩

/-! ## Records -/

/-- One field after the other. -/
def prod (c : Codec α) (d : Codec β) : Codec (α × β) where
  ser := fun p => c.ser p.1 ++ d.ser p.2
  de := fun s => match c.de s with
    | .error e => .error e
    | .ok (x, s') => match d.de s' with
      | .error e => .error e
      | .ok (y, r) => .ok ((x, y), r)
  Enc := fun p e => ∃ e₁ e₂, e = e₁ ++ e₂ ∧ c.Enc p.1 e₁ ∧ d.Enc p.2 e₂
  de_ok := by
    rintro s ⟨x, y⟩ r
    constructor
    · intro h
      cases h₁ : c.de s with
      | error e => simp [h₁] at h
      | ok p =>
          obtain ⟨x', s'⟩ := p
          cases h₂ : d.de s' with
          | error e => simp [h₁, h₂] at h
          | ok q =>
              obtain ⟨y', r'⟩ := q
              simp only [h₁, h₂, Except.ok.injEq, Prod.mk.injEq] at h
              obtain ⟨⟨rfl, rfl⟩, rfl⟩ := h
              obtain ⟨e₁, rfl, he₁⟩ := c.de_ok.mp h₁
              obtain ⟨e₂, rfl, he₂⟩ := d.de_ok.mp h₂
              exact ⟨e₁ ++ e₂, by simp, e₁, e₂, rfl, he₁, he₂⟩
    · rintro ⟨e, rfl, e₁, e₂, rfl, he₁, he₂⟩
      have h₁ : c.de (e₁ ++ e₂ ++ r) = .ok (x, e₂ ++ r) := c.de_ok.mpr ⟨e₁, by simp, he₁⟩
      have h₂ : d.de (e₂ ++ r) = .ok (y, r) := d.de_ok.mpr ⟨e₂, rfl, he₂⟩
      simp only [h₁, h₂]
  enc_ser := by
    rintro ⟨x, y⟩ e ⟨e₁, e₂, rfl, he₁, he₂⟩
    exact ⟨_, _, rfl, c.enc_ser he₁, d.enc_ser he₂⟩
  enc_length := by
    rintro ⟨x, y⟩ e ⟨e₁, e₂, rfl, he₁, he₂⟩
    simp [c.enc_length he₁, d.enc_length he₂]

@[simp] theorem fits_prod {c : Codec α} {d : Codec β} {p : α × β} :
    (prod c d).Fits p ↔ c.Fits p.1 ∧ d.Fits p.2 := by
  constructor
  · rintro ⟨e₁, e₂, -, he₁, he₂⟩
    exact ⟨c.enc_ser he₁, d.enc_ser he₂⟩
  · rintro ⟨h₁, h₂⟩
    exact ⟨_, _, rfl, h₁, h₂⟩

theorem prod_de (c : Codec α) (d : Codec β) (s : Bytes) :
    (prod c d).de s = do
      let (x, s) ← c.de s
      let (y, s) ← d.de s
      return ((x, y), s) := by
  show (match c.de s with | .error e => _ | .ok (x, s') => _) = _
  cases c.de s with
  | error e => rfl
  | ok p =>
      simp only [Bind.bind, Except.bind]
      cases d.de p.2 <;> rfl

/-- The same bytes under another type with the same values. -/
def iso (c : Codec α) (f : α → β) (g : β → α) (left : ∀ x, g (f x) = x)
    (right : ∀ y, f (g y) = y) : Codec β where
  ser := fun y => c.ser (g y)
  de := fun s => (c.de s).map fun p => (f p.1, p.2)
  Enc := fun y e => c.Enc (g y) e
  de_ok := by
    intro s y r
    rw [← c.de_ok]
    cases h : c.de s with
    | error e => simp [Except.map]
    | ok p =>
        obtain ⟨x, r'⟩ := p
        simp only [Except.map, Except.ok.injEq, Prod.mk.injEq]
        constructor
        · rintro ⟨rfl, rfl⟩
          exact ⟨(left x).symm, rfl⟩
        · rintro ⟨rfl, rfl⟩
          exact ⟨right y, rfl⟩
  enc_ser := fun h => c.enc_ser h
  enc_length := fun h => c.enc_length h

@[simp] theorem fits_iso {c : Codec α} {f : α → β} {g : β → α} {h₁ : ∀ x, g (f x) = x}
    {h₂ : ∀ y, f (g y) = y} {y : β} : (iso c f g h₁ h₂).Fits y ↔ c.Fits (g y) := Iff.rfl

theorem iso_de (c : Codec α) (f : α → β) (g : β → α) (h₁ : ∀ x, g (f x) = x)
    (h₂ : ∀ y, f (g y) = y) (s : Bytes) :
    (iso c f g h₁ h₂).de s = (c.de s).map fun p => (f p.1, p.2) := rfl

/-! ## Counted vectors -/

/-- Read `n` values in a row. -/
def readMany (de : Reader α) : Nat → Reader (List α)
  | 0, s => .ok ([], s)
  | n + 1, s => match de s with
    | .error e => .error e
    | .ok (x, s') => match readMany de n s' with
      | .error e => .error e
      | .ok (xs, r) => .ok (x :: xs, r)

theorem readMany_ok {n : Nat} {s r : Bytes} {xs : List α} :
    readMany c.de n s = .ok (xs, r) ↔
      ∃ es, s = es.flatten ++ r ∧ List.Forall₂ c.Enc xs es ∧ xs.length = n := by
  induction n generalizing s xs with
  | zero =>
      constructor
      · intro h
        simp only [readMany, Except.ok.injEq, Prod.mk.injEq] at h
        obtain ⟨rfl, rfl⟩ := h
        exact ⟨[], rfl, .nil, rfl⟩
      · rintro ⟨es, rfl, hes, hn⟩
        obtain rfl := List.length_eq_zero_iff.mp hn
        cases hes
        rfl
  | succ n ih =>
      constructor
      · intro h
        rw [readMany] at h
        cases h₁ : c.de s with
        | error e => simp [h₁] at h
        | ok p =>
            obtain ⟨x, s'⟩ := p
            cases h₂ : readMany c.de n s' with
            | error e => simp [h₁, h₂] at h
            | ok q =>
                obtain ⟨ys, r'⟩ := q
                simp only [h₁, h₂, Except.ok.injEq, Prod.mk.injEq] at h
                obtain ⟨rfl, rfl⟩ := h
                obtain ⟨e, rfl, he⟩ := c.de_ok.mp h₁
                obtain ⟨es, rfl, hes, hlen⟩ := ih.mp h₂
                exact ⟨e :: es, by simp, .cons he hes, by simp [hlen]⟩
      · rintro ⟨es, rfl, hes, hn⟩
        cases hes with
        | nil => simp at hn
        | @cons x e ys es he hes =>
            have h₁ : c.de ((e :: es).flatten ++ r) = .ok (x, es.flatten ++ r) :=
              c.de_ok.mpr ⟨e, by simp, he⟩
            have h₂ : readMany c.de n (es.flatten ++ r) = .ok (ys, r) :=
              ih.mpr ⟨es, rfl, hes, by simpa using hn⟩
            simp only [readMany, h₁, h₂]

/-- Values read in a row can be read in two goes. -/
theorem readMany_add (de : Reader α) (m n : Nat) (s : Bytes) :
    readMany de (m + n) s = do
      let (xs, s) ← readMany de m s
      let (ys, s) ← readMany de n s
      return (xs ++ ys, s) := by
  induction m generalizing s with
  | zero =>
      rw [Nat.zero_add]
      cases h : readMany de n s <;> simp [readMany, h, Bind.bind, Except.bind, pure, Except.pure]
  | succ m ih =>
      rw [Nat.add_right_comm, readMany, readMany]
      cases hx : de s with
      | error e => rfl
      | ok p =>
          obtain ⟨x, s'⟩ := p
          simp only [ih]
          cases hxs : readMany de m s' with
          | error e => rfl
          | ok q =>
              obtain ⟨xs, s''⟩ := q
              simp only [Bind.bind, Except.bind]
              cases readMany de n s'' <;> rfl

/-- Bytes are read at once as they are read one by one. -/
theorem readMany_u8 (n : Nat) (s : Bytes) : readMany u8.de n s = readBytes n s := by
  induction n generalizing s with
  | zero => simp [readMany, readBytes]
  | succ n ih =>
      cases s with
      | nil => rfl
      | cons b s =>
          have hb : u8.de (b :: s) = .ok (b, s) := rfl
          simp only [readMany, hb, ih, readBytes, List.length_cons, Nat.add_le_add_iff_right]
          by_cases hn : n ≤ s.length <;> simp [hn]

/-- The shortest-form size prefix: one byte below `253`, else a marker byte
followed by two, four or eight bytes. -/
def writeSize (n : UInt64) : Bytes :=
  if n.toNat < 253 then [UInt8.ofNat n.toNat]
  else if n.toNat < 2 ^ 16 then 253 :: leBytes 2 n.toNat
  else if n.toNat < 2 ^ 32 then 254 :: leBytes 4 n.toNat
  else 255 :: leBytes 8 n.toNat

/-- Read a `w`-byte size that must be at least `lo` to be in shortest form. -/
def readWideSize (w lo : Nat) (s : Bytes) : Except ReadError (Nat × Bytes) :=
  match readBytes w s with
  | .error e => .error e
  | .ok (b, r) => if leNat b < lo then .error .nonCanonicalSize else .ok (leNat b, r)

/-- Read a size prefix, refusing longer forms than needed and sizes over `max`. -/
def readSize (max : Nat) (s : Bytes) : Except ReadError (Nat × Bytes) :=
  match s with
  | [] => .error .endOfData
  | b :: s' =>
    let size :=
      if b.toNat < 253 then .ok (b.toNat, s')
      else if b = 253 then readWideSize 2 253 s'
      else if b = 254 then readWideSize 4 (2 ^ 16) s'
      else readWideSize 8 (2 ^ 32) s'
    match size with
    | .error e => .error e
    | .ok (n, r) => if max < n then .error .sizeTooLarge else .ok (n, r)

theorem readWideSize_ok {w lo n : Nat} {s r : Bytes} :
    readWideSize w lo s = .ok (n, r) ↔ s = leBytes w n ++ r ∧ lo ≤ n ∧ n < 256 ^ w := by
  unfold readWideSize
  constructor
  · intro h
    cases hb : readBytes w s with
    | error e => simp [hb] at h
    | ok p =>
        obtain ⟨b, r'⟩ := p
        obtain ⟨rfl, hlen⟩ := readBytes_ok.mp hb
        simp only [hb] at h
        by_cases hlo : leNat b < lo
        · simp [if_pos hlo] at h
        · simp only [if_neg hlo, Except.ok.injEq, Prod.mk.injEq] at h
          obtain ⟨rfl, rfl⟩ := h
          have hlt := leNat_lt b
          rw [hlen] at hlt
          refine ⟨?_, by omega, hlt⟩
          rw [← hlen, leBytes_leNat]
  · rintro ⟨rfl, hlo, hlt⟩
    have hb : readBytes w (leBytes w n ++ r) = .ok (leBytes w n, r) :=
      readBytes_ok.mpr ⟨rfl, length_leBytes ..⟩
    simp only [hb, leNat_leBytes_of_lt hlt, if_neg (by omega : ¬ n < lo)]

theorem readWideSize_leBytes {w lo n : Nat} (hlo : lo ≤ n) (hlt : n < 256 ^ w) (r : Bytes) :
    readWideSize w lo (leBytes w n ++ r) = .ok (n, r) :=
  readWideSize_ok.mpr ⟨rfl, hlo, hlt⟩

theorem readSize_writeSize {max : Nat} {n : UInt64} (h : n.toNat ≤ max) (r : Bytes) :
    readSize max (writeSize n ++ r) = .ok (n.toNat, r) := by
  have hn : n.toNat < 256 ^ 8 := n.toNat_lt
  have hmax : ¬ max < n.toNat := by omega
  unfold writeSize
  split_ifs with h1 h2 h3
  · have hb : (UInt8.ofNat n.toNat).toNat = n.toNat := by
      rw [UInt8.toNat_ofNat']
      omega
    simp only [List.singleton_append, readSize, hb, if_pos h1, if_neg hmax]
  · rw [List.cons_append, readSize]
    simp [readWideSize_leBytes (w := 2) (by omega : 253 ≤ n.toNat) h2, hmax]
  · rw [List.cons_append, readSize]
    simp [readWideSize_leBytes (w := 4) (by omega : 65536 ≤ n.toNat) h3, hmax]
  · rw [List.cons_append, readSize]
    simp [readWideSize_leBytes (by omega : 4294967296 ≤ n.toNat) hn, hmax]

theorem readSize_ok {max n : Nat} {s r : Bytes} (h : readSize max s = .ok (n, r)) :
    s = writeSize (UInt64.ofNat n) ++ r ∧ n ≤ max ∧ n < 2 ^ 64 := by
  cases s with
  | nil => simp [readSize] at h
  | cons b s' =>
      rw [readSize] at h
      split at h
      · cases h
      · rename_i m r' hsize
        by_cases hmax : max < m
        · simp [if_pos hmax] at h
        simp only [if_neg hmax, Except.ok.injEq, Prod.mk.injEq] at h
        obtain ⟨rfl, rfl⟩ := h
        split_ifs at hsize with h1 h2 h3
        · simp only [Except.ok.injEq, Prod.mk.injEq] at hsize
          obtain ⟨rfl, rfl⟩ := hsize
          refine ⟨?_, by omega, by omega⟩
          simp [writeSize, h1]
        all_goals
          obtain ⟨rfl, hlo, hlt⟩ := readWideSize_ok.mp hsize
          norm_num at hlo hlt
          have hb : (UInt64.ofNat m).toNat = m := by
            rw [UInt64.toNat_ofNat']
            omega
        · refine ⟨?_, by omega, by omega⟩
          rw [writeSize, hb, if_neg (by omega), if_pos (by omega), h2]
          rfl
        · refine ⟨?_, by omega, by omega⟩
          rw [writeSize, hb, if_neg (by omega), if_neg (by omega), if_pos (by omega), h3]
          rfl
        · have h255 : b = 255 := by
            have hb' := b.toNat_lt
            have hne2 : b.toNat ≠ 253 := fun hc => h2 (UInt8.toNat_inj.mp hc)
            have hne3 : b.toNat ≠ 254 := fun hc => h3 (UInt8.toNat_inj.mp hc)
            apply UInt8.toNat_inj.mp
            show b.toNat = 255
            omega
          refine ⟨?_, by omega, by omega⟩
          rw [writeSize, hb, if_neg (by omega), if_neg (by omega), if_neg (by omega), h255]
          rfl

/-- A vector: its size, then its elements.  At most `max` elements are read. -/
def vec (max : Nat) (c : Codec α) : Codec (List α) where
  ser := fun xs => writeSize (UInt64.ofNat xs.length) ++ xs.flatMap c.ser
  de := fun s => match readSize max s with
    | .error e => .error e
    | .ok (n, s') => readMany c.de n s'
  Enc := fun xs e => xs.length ≤ max ∧ xs.length < 2 ^ 64 ∧
    ∃ es, e = writeSize (UInt64.ofNat xs.length) ++ es.flatten ∧ List.Forall₂ c.Enc xs es
  de_ok := by
    intro s xs r
    constructor
    · intro h
      cases h₁ : readSize max s with
      | error e => simp [h₁] at h
      | ok p =>
          obtain ⟨n, s'⟩ := p
          simp only [h₁] at h
          obtain ⟨rfl, hmax, h64⟩ := readSize_ok h₁
          obtain ⟨es, rfl, hes, rfl⟩ := readMany_ok.mp h
          exact ⟨_, by simp, hmax, h64, es, rfl, hes⟩
    · rintro ⟨e, rfl, hmax, h64, es, rfl, hes⟩
      have hlen : (UInt64.ofNat xs.length).toNat = xs.length := by
        rw [UInt64.toNat_ofNat']
        omega
      rw [List.append_assoc, readSize_writeSize (by omega), hlen]
      exact readMany_ok.mpr ⟨es, rfl, hes, rfl⟩
  enc_ser := by
    rintro xs e ⟨hmax, h64, es, rfl, hes⟩
    refine ⟨hmax, h64, xs.map c.ser, by rw [List.flatMap_def], ?_⟩
    clear hmax h64
    induction hes with
    | nil => exact .nil
    | cons he _ ih => exact .cons (c.enc_ser he) ih
  enc_length := by
    rintro xs e ⟨hmax, h64, es, rfl, hes⟩
    have hsum : es.flatten.length = (xs.flatMap c.ser).length := by
      clear hmax h64
      induction hes with
      | nil => rfl
      | cons he _ ih =>
          rw [List.flatten_cons, List.flatMap_cons, List.length_append, List.length_append,
            c.enc_length he, ih]
    rw [List.length_append, List.length_append, hsum]

/-- A vector fits when it is short enough and its elements fit. -/
theorem fits_vec {max : Nat} {c : Codec α} {xs : List α} (hmax : max < 2 ^ 64) :
    (vec max c).Fits xs ↔ xs.length ≤ max ∧ ∀ x ∈ xs, c.Fits x := by
  constructor
  · rintro ⟨hlen, -, es, -, hes⟩
    refine ⟨hlen, ?_⟩
    clear hlen
    induction hes with
    | nil => simp
    | cons he _ ih => exact List.forall_mem_cons.mpr ⟨c.enc_ser he, ih⟩
  · rintro ⟨hlen, hall⟩
    refine ⟨hlen, by omega, xs.map c.ser, by simp [vec, List.flatMap_def], ?_⟩
    clear hlen
    induction xs with
    | nil => exact .nil
    | cons x xs ih =>
        obtain ⟨hx, hxs⟩ := List.forall_mem_cons.mp hall
        exact .cons hx (ih hxs)

theorem length_writeSize_le (n : UInt64) : (writeSize n).length ≤ 9 := by
  unfold writeSize
  split_ifs <;> simp

/-- A bound for the elements gives one for the vector. -/
theorem length_vec_ser_le {max bound : Nat} {c : Codec α} {xs : List α}
    (h : ∀ x ∈ xs, (c.ser x).length ≤ bound) :
    ((vec max c).ser xs).length ≤ 9 + xs.length * bound := by
  have hsum : (xs.flatMap c.ser).length ≤ xs.length * bound := by
    rw [List.length_flatMap]
    have hle := List.sum_le_card_nsmul (xs.map fun x => (c.ser x).length) bound (by simpa using h)
    simpa using hle
  have hsize := length_writeSize_le (UInt64.ofNat xs.length)
  show (writeSize _ ++ _).length ≤ _
  rw [List.length_append]
  omega

/-! ## Canonical codecs -/

/-- Every value has one encoding at most, the one the writer gives. -/
def Canonical (c : Codec α) : Prop := ∀ x e, c.Enc x e → e = c.ser x

/-- **What a canonical reader accepts is what its writer writes**: the bytes it
takes off the stream are those of the value it returns. -/
theorem Canonical.eq_append_of_de (hc : c.Canonical) {s r : Bytes} {x : α}
    (h : c.de s = .ok (x, r)) : s = c.ser x ++ r := by
  obtain ⟨e, rfl, he⟩ := c.de_ok.mp h
  rw [hc x e he]

theorem canonical_fixed {w : Nat} {toB : α → Bytes} {ofB : Bytes → α}
    {len : ∀ x, (toB x).length = w} {left : ∀ x, ofB (toB x) = x}
    {right : ∀ b, b.length = w → toB (ofB b) = b} :
    (fixed w toB ofB len left right).Canonical := by
  intro x e he
  exact he

theorem Canonical.prod {c : Codec α} {d : Codec β} (hc : c.Canonical) (hd : d.Canonical) :
    (prod c d).Canonical := by
  rintro ⟨x, y⟩ e ⟨e₁, e₂, rfl, he₁, he₂⟩
  rw [hc x e₁ he₁, hd y e₂ he₂]
  rfl

theorem Canonical.iso {f : α → β} {g : β → α} {h₁ : ∀ x, g (f x) = x} {h₂ : ∀ y, f (g y) = y}
    (hc : c.Canonical) : (iso c f g h₁ h₂).Canonical := by
  intro y e he
  exact hc (g y) e he

theorem Canonical.vec {max : Nat} (hc : c.Canonical) : (vec max c).Canonical := by
  rintro xs e ⟨-, -, es, rfl, hes⟩
  have hflat : es.flatten = xs.flatMap c.ser := by
    induction hes with
    | nil => rfl
    | @cons x e _ _ he _ ih =>
        rw [List.flatten_cons, List.flatMap_cons, hc x e he, ih]
  rw [hflat]
  rfl

end Codec

/-! ## Streams to write to -/

/-- What bytes are written to.  Writing in pieces is writing at once. -/
structure Sink (σ : Type) where
  write : σ → Bytes → σ
  write_nil : ∀ s, write s [] = s
  write_append : ∀ s a b, write s (a ++ b) = write (write s a) b

namespace Sink

variable {σ α : Type}

/-- A stream that keeps what is written to it. -/
def data : Sink Bytes where
  write := fun s b => s ++ b
  write_nil := List.append_nil
  write_append := fun s a b => (List.append_assoc s a b).symm

/-- A stream that only counts the bytes, in a 64-bit number. -/
def size : Sink UInt64 where
  write := fun s b => s + UInt64.ofNat b.length
  write_nil := by simp
  write_append := by
    intro s a b
    rw [List.length_append, UInt64.ofNat_add, UInt64.add_assoc]

theorem foldl_write (os : Sink σ) (f : α → Bytes) (s : σ) (xs : List α) :
    xs.foldl (fun s x => os.write s (f x)) s = os.write s (xs.flatMap f) := by
  induction xs generalizing s with
  | nil => simp [os.write_nil]
  | cons x xs ih => rw [List.foldl_cons, ih, List.flatMap_cons, os.write_append]

end Sink

/-! ## Field lists -/

/-- A record of which only some fields are written.  Reading starts from a
default record and fills in the listed fields. -/
structure View (α : Type) where
  Fields : Type
  codec : Codec Fields
  get : α → Fields
  build : Fields → α
  get_build : ∀ f, get (build f) = f

namespace View

variable {α : Type} (v : View α)

def ser (x : α) : Bytes := v.codec.ser (v.get x)

def de : Reader α := fun s => (v.codec.de s).map fun p => (v.build p.1, p.2)

/-- The listed fields of the record can be written and read back. -/
def Fits (x : α) : Prop := v.codec.Fits (v.get x)

/-- What is left of a record once it has been written and read back. -/
def stored (x : α) : α := v.build (v.get x)

variable {v}

theorem de_ok {s r : Bytes} {x : α} :
    v.de s = .ok (x, r) ↔ ∃ f, v.codec.de s = .ok (f, r) ∧ x = v.build f := by
  unfold de
  cases h : v.codec.de s with
  | error e => simp [Except.map]
  | ok p =>
      obtain ⟨f, r'⟩ := p
      simp only [Except.map, Except.ok.injEq, Prod.mk.injEq]
      constructor
      · rintro ⟨rfl, rfl⟩
        exact ⟨f, ⟨rfl, rfl⟩, rfl⟩
      · rintro ⟨f', ⟨rfl, rfl⟩, rfl⟩
        exact ⟨rfl, rfl⟩

theorem de_isOk_iff {s : Bytes} : (∃ p, v.de s = .ok p) ↔ v.codec.Complete s := by
  rw [← Codec.de_isOk_iff]
  constructor
  · rintro ⟨⟨x, r⟩, h⟩
    obtain ⟨f, hf, -⟩ := de_ok.mp h
    exact ⟨_, hf⟩
  · rintro ⟨⟨f, r⟩, h⟩
    exact ⟨_, de_ok.mpr ⟨f, h, rfl⟩⟩

@[simp] theorem ser_stored (x : α) : v.ser (v.stored x) = v.ser x := by
  rw [ser, stored, v.get_build, ser]

@[simp] theorem stored_stored (x : α) : v.stored (v.stored x) = v.stored x := by
  rw [stored, stored, v.get_build]

theorem de_ser {x : α} (h : v.Fits x) (r : Bytes) : v.de (v.ser x ++ r) = .ok (v.stored x, r) :=
  de_ok.mpr ⟨v.get x, Codec.de_ser h r, rfl⟩

/-- What a reader returns fits and is its own stored form. -/
theorem fits_of_de {s r : Bytes} {x : α} (h : v.de s = .ok (x, r)) : v.Fits x ∧ v.stored x = x := by
  obtain ⟨f, hf, rfl⟩ := de_ok.mp h
  rw [Fits, stored, v.get_build]
  exact ⟨Codec.fits_of_de hf, rfl⟩

theorem length_of_de {s r : Bytes} {x : α} (h : v.de s = .ok (x, r)) :
    s.length = (v.ser x).length + r.length := by
  obtain ⟨f, hf, rfl⟩ := de_ok.mp h
  rw [ser, v.get_build]
  exact Codec.length_of_de hf

end View
end Codecs
