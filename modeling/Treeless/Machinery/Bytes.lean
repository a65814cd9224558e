import Mathlib.Data.List.GetD
import Mathlib.Tactic.Ring

/-!
# Machinery/Bytes — little-endian words and byte memories

A word is written least significant byte first (`leBytes`) and read back by `leNat`, modulo its
width.  A byte memory `Mem` is read and written one block at a time: a block read where it was
written is the block (`read_write_same`), and where two memories agree byte by byte they read alike
(`read_congr`).
-/

namespace Treeless

universe u

/-- A byte string. -/
abbrev Bytes := List UInt8

/-- How a call can end without returning: an index or slice out of range, an explicit panic, or a
loop that never ends. -/
inductive Fault
  | bounds
  | panic
  | endless
  deriving DecidableEq, Repr

/-- A call that may end in a `Fault`. -/
abbrev Call (α : Type u) := Except Fault α

@[simp] theorem Call.ok_bind {α β : Type u} (a : α) (f : α → Call β) :
    (Except.ok a >>= f) = f a := rfl

@[simp] theorem Call.error_bind {α β : Type u} (e : Fault) (f : α → Call β) :
    ((Except.error e : Call α) >>= f) = .error e := rfl

@[simp] theorem Call.pure_eq {α : Type u} (a : α) : (pure a : Call α) = .ok a := rfl

/-- **A call that returned went through its first half.** -/
theorem Call.bind_eq_ok {α β : Type u} {x : Call α} {f : α → Call β} {b : β} :
    x >>= f = .ok b ↔ ∃ a, x = .ok a ∧ f a = .ok b := by
  cases x with
  | ok a => simp
  | error e => simp

theorem Call.map_eq_ok {α β : Type u} {x : Call α} {f : α → β} {b : β} :
    x.map f = .ok b ↔ ∃ a, x = .ok a ∧ f a = b := by
  cases x with
  | ok a => simp [Except.map]
  | error e => simp [Except.map]

theorem Call.eq_ok_of_toOption {α : Type u} {x : Call α} {a : α} (h : x.toOption = some a) :
    x = .ok a := by
  cases x with
  | error f => cases h
  | ok b => rw [Option.some.inj h]

/-- A loop is known by its turns. -/
theorem Call.foldlM_congr {α : Type u} {γ : Type*} {f g : α → γ → Call α} : ∀ {cs : List γ},
    (∀ c ∈ cs, ∀ a, f a c = g a c) → ∀ a, cs.foldlM f a = cs.foldlM g a
  | [], _, _ => rfl
  | c :: cs, h, a => by
      rw [List.foldlM_cons, List.foldlM_cons, h c List.mem_cons_self]
      exact bind_congr fun a' => foldlM_congr (fun d hd => h d (List.mem_cons_of_mem c hd)) a'

/-- The call, if it returns, returns a value that satisfies `P`. -/
def Call.Returns {α : Type u} (P : α → Prop) (x : Call α) : Prop := ∀ a, x = .ok a → P a

namespace Call.Returns

variable {α β : Type u} {P : α → Prop} {Q : β → Prop} {x : Call α}

theorem ok {a : α} (h : P a) : Returns P (.ok a) := fun _ heq => Except.ok.inj heq ▸ h

theorem fault (f : Fault) : Returns P (.error f) := fun _ heq => nomatch heq

theorem mono {P' : α → Prop} (h : Returns P x) (hP : ∀ a, P a → P' a) : Returns P' x :=
  fun a heq => hP a (h a heq)

/-- **The rule of sequence.** -/
theorem seq {f : α → Call β} (h : Returns P x) (hf : ∀ a, P a → Returns Q (f a)) :
    Returns Q (x >>= f) := fun b heq => by
  obtain ⟨a, ha, heq⟩ := Call.bind_eq_ok.mp heq
  exact hf a (h a ha) b heq

/-- Whatever the first half returns. -/
theorem bind {f : α → Call β} (hf : ∀ a, Returns Q (f a)) : Returns Q (x >>= f) :=
  seq (P := fun _ => True) (fun _ _ => trivial) fun a _ => hf a

/-- **The rule of a loop**: what every turn keeps. -/
theorem foldlM {γ : Type*} {f : α → γ → Call α} (hf : ∀ a c, P a → Returns P (f a c)) :
    ∀ (cs : List γ) {a : α}, P a → Returns P (cs.foldlM f a)
  | [], _, ha => ok ha
  | c :: cs, a, ha => by
      rw [List.foldlM_cons]
      exact seq (hf a c ha) fun _ ha' => foldlM hf cs ha'

end Call.Returns

/-- The call returns a value that satisfies `P`, or ends in a fault that satisfies `E`. -/
def Call.Ends {α : Type u} (E : Fault → Prop) (P : α → Prop) : Call α → Prop
  | .ok a => P a
  | .error f => E f

namespace Call.Ends

variable {α β : Type u} {E : Fault → Prop} {P : α → Prop} {Q : β → Prop} {x : Call α}

theorem returns (h : Ends E P x) : x.Returns P := fun a heq => by
  subst heq
  exact h

theorem of_error (h : Ends E P x) {f : Fault} (heq : x = .error f) : E f := by
  subst heq
  exact h

theorem mono {E' : Fault → Prop} {P' : α → Prop} (h : Ends E P x) (hE : ∀ f, E f → E' f)
    (hP : ∀ a, P a → P' a) : Ends E' P' x := by
  cases x with
  | ok a => exact hP a h
  | error f => exact hE f h

theorem and {P' : α → Prop} (h : Ends E P x) (h' : x.Returns P') :
    Ends E (fun a => P a ∧ P' a) x := by
  cases x with
  | ok a => exact ⟨h, h' a rfl⟩
  | error f => exact h

/-- **The rule of sequence**, with faults. -/
theorem seq {f : α → Call β} (h : Ends E P x) (hf : ∀ a, P a → Ends E Q (f a)) :
    Ends E Q (x >>= f) := by
  cases x with
  | ok a => exact hf a h
  | error f => exact h

/-- **The rule of a loop**, with faults. -/
theorem foldlM {γ : Type*} {f : α → γ → Call α} : ∀ {cs : List γ},
    (∀ c ∈ cs, ∀ a, P a → Ends E P (f a c)) → ∀ {a : α}, P a → Ends E P (cs.foldlM f a)
  | [], _, _, ha => ha
  | c :: cs, hf, a, ha => by
      rw [List.foldlM_cons]
      exact seq (hf c List.mem_cons_self a ha) fun _ ha' =>
        foldlM (fun d hd => hf d (List.mem_cons_of_mem c hd)) ha'

end Call.Ends

/-- `bs[lo:hi]`, in range. -/
def slice (bs : Bytes) (lo hi : ℕ) : Call Bytes :=
  if lo ≤ hi ∧ hi ≤ bs.length then .ok ((bs.take hi).drop lo) else .error .bounds

theorem slice_eq {bs : Bytes} {lo hi : ℕ} (h : lo ≤ hi) (h' : hi ≤ bs.length) :
    slice bs lo hi = .ok ((bs.take hi).drop lo) := if_pos ⟨h, h'⟩

/-! ## Arrays that are filled from the left -/

/-- Writing at the first free place. -/
theorem set_append_replicate {α : Type u} (xs : List α) (a b : α) (room : ℕ) :
    (xs ++ List.replicate (room + 1) a).set xs.length b = xs ++ b :: List.replicate room a := by
  rw [List.set_append_right _ _ le_rfl, Nat.sub_self, List.replicate_succ, List.set_cons_zero]

/-! ## Little-endian words -/

/-- The number a byte string spells, least significant byte first. -/
def leNat : Bytes → ℕ
  | [] => 0
  | b :: bs => b.toNat + 256 * leNat bs

/-- The `w` low bytes of a number, least significant first. -/
def leBytes : ℕ → ℕ → Bytes
  | 0, _ => []
  | w + 1, x => UInt8.ofNat x :: leBytes w (x / 256)

@[simp] theorem length_leBytes : ∀ w x : ℕ, (leBytes w x).length = w
  | 0, _ => rfl
  | w + 1, x => by rw [leBytes, List.length_cons, length_leBytes w]

/-- **A word read back is the number written, modulo its width.** -/
theorem leNat_leBytes : ∀ w x : ℕ, leNat (leBytes w x) = x % 256 ^ w
  | 0, x => by rw [leBytes, leNat, pow_zero, Nat.mod_one]
  | w + 1, x => by
      have hb : (UInt8.ofNat x).toNat = x % 256 := by simp
      rw [leBytes, leNat, leNat_leBytes w, hb, pow_succ', Nat.mod_mul]

theorem leNat_leBytes_of_lt {w x : ℕ} (h : x < 256 ^ w) : leNat (leBytes w x) = x := by
  rw [leNat_leBytes, Nat.mod_eq_of_lt h]

theorem leNat_lt : ∀ bs : Bytes, leNat bs < 256 ^ bs.length
  | [] => Nat.one_pos
  | b :: bs => by
      have hb : b.toNat < 256 := b.toNat_lt
      have ih := leNat_lt bs
      rw [leNat, List.length_cons, pow_succ']
      omega

/-- The number two byte strings spell, one behind the other. -/
theorem leNat_append : ∀ as bs : Bytes, leNat (as ++ bs) = leNat as + 256 ^ as.length * leNat bs
  | [], bs => by simp [leNat]
  | a :: as, bs => by
      rw [List.cons_append, leNat, leNat, leNat_append as bs, List.length_cons, pow_succ]
      ring

/-- **The number a byte string spells, written again, is the byte string.** -/
theorem leBytes_leNat : ∀ bs : Bytes, leBytes bs.length (leNat bs) = bs
  | [] => rfl
  | b :: bs => by
      have hb : b.toNat < 256 := b.toNat_lt
      have hhead : UInt8.ofNat (b.toNat + 256 * leNat bs) = b :=
        UInt8.toNat_inj.mp (by rw [UInt8.toNat_ofNat']; omega)
      have htail : (b.toNat + 256 * leNat bs) / 256 = leNat bs := by omega
      rw [List.length_cons, leNat, leBytes, hhead, htail, leBytes_leNat bs]

/-! ## Fragments -/

/-- What may be there of a block that was being written over zeros: of its first bytes, some. -/
def Fragment : Bytes → Bytes → Prop
  | [], _ => True
  | _ :: _, [] => False
  | a :: as, b :: bs => (a = 0 ∨ a = b) ∧ Fragment as bs

namespace Fragment

protected theorem refl : ∀ bs : Bytes, Fragment bs bs
  | [] => trivial
  | _ :: bs => ⟨Or.inr rfl, .refl bs⟩

theorem zeros : ∀ {n : ℕ} {bs : Bytes}, n ≤ bs.length → Fragment (List.replicate n 0) bs
  | 0, _, _ => trivial
  | _ + 1, _ :: _, h => ⟨Or.inl rfl, zeros (Nat.le_of_succ_le_succ h)⟩

/-- **A fragment of a word spells no greater number.** -/
theorem leNat_le : ∀ {as bs : Bytes}, Fragment as bs → leNat as ≤ leNat bs
  | [], _, _ => Nat.zero_le _
  | a :: as, b :: bs, ⟨hab, h⟩ => by
      have htail := leNat_le h
      have hhead : a.toNat ≤ b.toNat := by
        rcases hab with rfl | rfl
        · exact Nat.zero_le _
        · exact le_rfl
      rw [leNat, leNat]
      omega

/-- A fragment of the word of a number is the word of one that is no greater. -/
theorem exists_word {w x : ℕ} {as : Bytes} (h : Fragment as (leBytes w x)) (hlen : as.length = w)
    (hx : x < 256 ^ w) : ∃ y ≤ x, as = leBytes w y := by
  refine ⟨leNat as, ?_, ?_⟩
  · rw [← leNat_leBytes_of_lt hx]
    exact h.leNat_le
  · rw [← hlen, leBytes_leNat]

end Fragment

/-! ## Byte memories -/

/-- A byte memory: one byte at every address. -/
abbrev Mem := ℕ → UInt8

namespace Mem

/-- The block of `len` bytes at `off`. -/
def read (m : Mem) (off len : ℕ) : Bytes := (List.range len).map fun i => m (off + i)

/-- The memory with the block `bs` written at `off`. -/
def write (m : Mem) (off : ℕ) (bs : Bytes) : Mem := fun i =>
  if off ≤ i ∧ i < off + bs.length then bs.getD (i - off) 0 else m i

variable (m : Mem)

@[simp] theorem length_read (off len : ℕ) : (m.read off len).length = len := by simp [read]

theorem getElem_read {off len i : ℕ} (h : i < (m.read off len).length) :
    (m.read off len)[i] = m (off + i) := by simp [read]

theorem read_congr {m m' : Mem} {off len : ℕ} (h : ∀ i, off ≤ i → i < off + len → m i = m' i) :
    m.read off len = m'.read off len :=
  List.map_congr_left fun i hi => h _ (by omega) (by have := List.mem_range.mp hi; omega)

/-- Adjacent blocks concatenate. -/
theorem read_add (off a b : ℕ) : m.read off (a + b) = m.read off a ++ m.read (off + a) b := by
  rw [read, read, read, List.range_add, List.map_append, List.map_map]
  simp only [Function.comp_def, Nat.add_assoc]

/-- The first bytes of a block are the shorter block. -/
theorem take_read {off len k : ℕ} (h : k ≤ len) : (m.read off len).take k = m.read off k := by
  obtain ⟨b, rfl⟩ := Nat.exists_eq_add_of_le h
  rw [read_add, List.take_left' (length_read m off k)]

theorem write_apply_of_outside {off i : ℕ} {bs : Bytes} (h : i < off ∨ off + bs.length ≤ i) :
    m.write off bs i = m i := by
  rw [write, if_neg (by omega)]

/-- **A block read where it was written is the block.** -/
@[simp] theorem read_write_same (off : ℕ) (bs : Bytes) :
    (m.write off bs).read off bs.length = bs := by
  refine List.ext_getElem (by simp) fun i h1 h2 => ?_
  rw [getElem_read, write, if_pos (by omega), Nat.add_sub_cancel_left,
    List.getD_eq_getElem _ _ h2]

theorem read_succ (off len : ℕ) : m.read off (len + 1) = m off :: m.read (off + 1) len := by
  rw [Nat.add_comm len, read_add]
  rfl

/-- What is read of a block that was being written is a fragment of it. -/
theorem fragment_read {m : Mem} : ∀ {off : ℕ} {bs : Bytes},
    (∀ i < bs.length, m (off + i) = 0 ∨ m (off + i) = bs.getD i 0) →
      Fragment (m.read off bs.length) bs
  | _, [], _ => trivial
  | off, b :: bs, h => by
      rw [List.length_cons, read_succ]
      refine ⟨h 0 (Nat.succ_pos _), fragment_read fun i hi => ?_⟩
      rw [Nat.add_assoc, Nat.add_comm 1]
      exact h (i + 1) (Nat.succ_lt_succ hi)

/-- The block `bs` stands at `off`. -/
def Holds (off : ℕ) (bs : Bytes) : Prop := m.read off bs.length = bs

theorem holds_write (off : ℕ) (bs : Bytes) : (m.write off bs).Holds off bs :=
  read_write_same m off bs

/-- A concatenation stands at `off` exactly when its two halves stand one after the other. -/
theorem holds_append {off : ℕ} {as bs : Bytes} :
    m.Holds off (as ++ bs) ↔ m.Holds off as ∧ m.Holds (off + as.length) bs := by
  rw [Holds, Holds, Holds, List.length_append, read_add]
  exact ⟨fun h => List.append_inj h (length_read m off _), fun h => by rw [h.1, h.2]⟩

theorem Holds.congr {m m' : Mem} {off : ℕ} {bs : Bytes} (h : m.Holds off bs)
    (hm : ∀ i, off ≤ i → i < off + bs.length → m i = m' i) : m'.Holds off bs :=
  (read_congr hm).symm.trans h

/-- Two adjacent blocks are written as one. -/
theorem write_append (off : ℕ) (as bs : Bytes) :
    (m.write off as).write (off + as.length) bs = m.write off (as ++ bs) := by
  funext i
  simp only [write, List.length_append]
  by_cases h1 : off + as.length ≤ i ∧ i < off + as.length + bs.length
  · rw [if_pos h1, if_pos (by omega), List.getD_append_right _ _ _ _ (by omega)]
    congr 1
    omega
  · rw [if_neg h1]
    by_cases h2 : off ≤ i ∧ i < off + as.length
    · rw [if_pos h2, if_pos (by omega), List.getD_append _ _ _ _ (by omega)]
    · rw [if_neg h2, if_neg (by omega)]

/-- A block in front of zeros. -/
theorem holds_write_zeros {m : Mem} {off : ℕ} (hzero : ∀ i, off ≤ i → m i = 0) (bs : Bytes)
    (n : ℕ) : (m.write off bs).Holds off (bs ++ List.replicate n 0) := by
  refine (holds_append _).mpr ⟨holds_write .., ?_⟩
  refine List.eq_replicate_iff.mpr ⟨by simp, fun b hb => ?_⟩
  obtain ⟨i, -, rfl⟩ := List.mem_map.mp hb
  rw [write_apply_of_outside _ (Or.inr (Nat.le_add_right _ _)), hzero _ (by omega)]

/-- **A write cut short** over zeros leaves a fragment of its block. -/
theorem exists_fragment {m m' : Mem} {off : ℕ} (hzero : ∀ i, off ≤ i → m i = 0)
    {done block : Bytes}
    (hm : ∀ i, m' i = m.write off done i ∨ m' i = m.write off (done ++ block) i) :
    ∃ part, part.length = block.length ∧ Fragment part block
      ∧ m' = m.write off (done ++ part) := by
  have hlen : (m'.read (off + done.length) block.length).length = block.length := length_read ..
  rw [← write_append] at hm
  refine ⟨_, hlen, fragment_read fun i hi => ?_, ?_⟩
  · rcases hm (off + done.length + i) with h | h
    · rw [write_apply_of_outside _ (Or.inr (Nat.le_add_right _ _)), hzero _ (by omega)] at h
      exact Or.inl h
    · rw [write, if_pos (by omega), Nat.add_sub_cancel_left] at h
      exact Or.inr h
  · rw [← write_append]
    funext i
    by_cases hin : off + done.length ≤ i ∧ i < off + done.length + block.length
    · obtain ⟨j, rfl⟩ := Nat.exists_eq_add_of_le hin.1
      rw [write, if_pos (by omega), Nat.add_sub_cancel_left, List.getD_eq_getElem _ _ (by omega),
        getElem_read]
    · rw [write_apply_of_outside _ (by omega)]
      rcases hm i with h | h
      · exact h
      · rwa [write_apply_of_outside _ (by omega)] at h

end Mem

end Treeless
