import Mathlib.Data.UInt
import Virtkv.Command.Defs
import Virtkv.Flash.Span

/-!
# The hash of a key

`CityHash64` gets a pointer and a length. A key of a command is followed by other fields of the
command, a key of a batch by the length of its value. The probe sequence of a key must be the
same in both, so the hash may read nothing but the bytes of the key.

A read outside the mapped memory is a fault, which is `none` here.

## Main definitions

- `cityHash64` — `CityHash64`
- `hashOf` — the hash as a function of the key

## Main results

- `Same.hash` — the hash depends on the bytes of the key only
- `KeyAt.probes` — a key in memory is probed like a key of a command
-/

namespace Virtkv.City

/-- The mapped memory. -/
abbrev Mem := ℕ → Option UInt8

/-- `uint128`. -/
structure UInt128 where
  first : UInt64
  second : UInt64
  deriving DecidableEq

/-! ### Loads -/

/-- The little-endian number of `n` bytes at `p`. -/
def Mem.load (m : Mem) (p : ℕ) : ℕ → Option ℕ
  | 0 => some 0
  | n + 1 => do
    let b ← m p
    let rest ← load m (p + 1) n
    return b.toNat + 256 * rest

/-- `Fetch64`. -/
def Mem.fetch64 (m : Mem) (p : ℕ) : Option UInt64 := do
  let x ← m.load p 8
  return UInt64.ofNat x

/-- `Fetch32`. The value is used in 64-bit arithmetic. -/
def Mem.fetch32 (m : Mem) (p : ℕ) : Option UInt64 := do
  let x ← m.load p 4
  return UInt64.ofNat x

/-! ### Mixing -/

def k0 : UInt64 := 0xc3a5c85c97cb3127
def k1 : UInt64 := 0xb492b66fbe98f273
def k2 : UInt64 := 0x9ae16a3b2f90404f

/-- The byte of weight `256 ^ k`. -/
def byteOf (x k : UInt64) : UInt64 := (x >>> (8 * k)) &&& 0xff

/-- `bswap_64`. -/
def bswap64 (x : UInt64) : UInt64 :=
  byteOf x 7 ||| (byteOf x 6 <<< 8) ||| (byteOf x 5 <<< 16) ||| (byteOf x 4 <<< 24) |||
    (byteOf x 3 <<< 32) ||| (byteOf x 2 <<< 40) ||| (byteOf x 1 <<< 48) ||| (byteOf x 0 <<< 56)

/-- `Rotate`. -/
def rotate (val : UInt64) (shift : UInt64) : UInt64 :=
  if shift = 0 then val else (val >>> shift) ||| (val <<< (64 - shift))

/-- `ShiftMix`. -/
def shiftMix (val : UInt64) : UInt64 := val ^^^ (val >>> 47)

/-- `HashLen16Mul`. -/
def hashLen16Mul (u v mul : UInt64) : UInt64 :=
  let a := shiftMix ((u ^^^ v) * mul)
  shiftMix ((v ^^^ a) * mul) * mul

/-- `Hash128to64`. -/
def hash128to64 (x : UInt128) : UInt64 := hashLen16Mul x.first x.second 0x9ddfea08eb382d69

/-- `HashLen16`. -/
def hashLen16 (u v : UInt64) : UInt64 := hash128to64 ⟨u, v⟩

/-- `WeakHashLen32WithSeeds`. -/
def weakHashLen32WithSeeds (w x y z a b : UInt64) : UInt128 :=
  let a := a + w
  let b := rotate (b + a + z) 21
  let c := a
  let a := a + x + y
  let b := b + rotate a 44
  ⟨a + z, b + c⟩

/-- `WeakHashLen32WithSeedsArray`. -/
def weakHashLen32WithSeedsArray (m : Mem) (s : ℕ) (a b : UInt64) : Option UInt128 := do
  let w ← m.fetch64 s
  let x ← m.fetch64 (s + 8)
  let y ← m.fetch64 (s + 16)
  let z ← m.fetch64 (s + 24)
  return weakHashLen32WithSeeds w x y z a b

/-! ### The hash -/

section

variable (m : Mem) (s len : ℕ)

/-- The factor of the short hashes, `k2 + len * 2`. -/
def mulOf : UInt64 := k2 + UInt64.ofNat len * 2

/-- `HashLen0to16`. -/
def hashLen0to16 : Option UInt64 :=
  if 8 ≤ len then do
    let a ← m.fetch64 s
    let a := a + k2
    let b ← m.fetch64 (s + len - 8)
    let c := rotate b 37 * mulOf len + a
    let d := (rotate a 25 + b) * mulOf len
    return hashLen16Mul c d (mulOf len)
  else if 4 ≤ len then do
    let a ← m.fetch32 s
    let b ← m.fetch32 (s + len - 4)
    return hashLen16Mul (UInt64.ofNat len + (a <<< 3)) b (mulOf len)
  else if 0 < len then do
    let a ← m s
    let b ← m (s + len / 2)
    let c ← m (s + len - 1)
    let y := UInt32.ofNat a.toNat + (UInt32.ofNat b.toNat <<< 8)
    let z := UInt32.ofNat len + (UInt32.ofNat c.toNat <<< 2)
    return shiftMix (y.toUInt64 * k2 ^^^ z.toUInt64 * k0) * k2
  else return k2

/-- `HashLen17to32`. -/
def hashLen17to32 : Option UInt64 := do
  let a ← m.fetch64 s
  let a := a * k1
  let b ← m.fetch64 (s + 8)
  let c ← m.fetch64 (s + len - 8)
  let c := c * mulOf len
  let d ← m.fetch64 (s + len - 16)
  let d := d * k2
  return hashLen16Mul (rotate (a + b) 43 + rotate c 30 + d) (a + rotate (b + k2) 18 + c) (mulOf len)

/-- `HashLen33to64`. -/
def hashLen33to64 : Option UInt64 := do
  let mul := mulOf len
  let a ← m.fetch64 s
  let a := a * k2
  let b ← m.fetch64 (s + 8)
  let c ← m.fetch64 (s + len - 24)
  let d ← m.fetch64 (s + len - 32)
  let e ← m.fetch64 (s + 16)
  let e := e * k2
  let f ← m.fetch64 (s + 24)
  let f := f * 9
  let g ← m.fetch64 (s + len - 8)
  let h ← m.fetch64 (s + len - 16)
  let h := h * mul
  let u := rotate (a + g) 43 + (rotate b 30 + c) * 9
  let v := ((a + g) ^^^ d) + f + 1
  let w := bswap64 ((u + v) * mul) + h
  let x := rotate (e + f) 42 + c
  let y := (bswap64 ((v + w) * mul) + g) * mul
  let z := e + f + c
  let a := bswap64 ((x + z) * mul + y) + b
  let b := shiftMix ((z + a) * mul + d + h) * mul
  return b + x

end

/-- The 56 bytes of state of the long hash. -/
structure Long where
  x : UInt64
  y : UInt64
  z : UInt64
  v : UInt128
  w : UInt128

/-- The body of the loop of `CityHash64`, for the 64 bytes at `s`. -/
def Long.chunk (m : Mem) (s : ℕ) (h : Long) : Option Long := do
  let f ← m.fetch64 (s + 8)
  let x := rotate (h.x + h.y + h.v.first + f) 37 * k1
  let f ← m.fetch64 (s + 48)
  let y := rotate (h.y + h.v.second + f) 42 * k1
  let x := x ^^^ h.w.second
  let f ← m.fetch64 (s + 40)
  let y := y + (h.v.first + f)
  let z := rotate (h.z + h.w.first) 33 * k1
  let v ← weakHashLen32WithSeedsArray m s (h.v.second * k1) (x + h.w.first)
  let f ← m.fetch64 (s + 16)
  let w ← weakHashLen32WithSeedsArray m (s + 32) (z + h.w.second) (y + f)
  return { x := z, y := y, z := x, v := v, w := w }

/-- The loop of `CityHash64` over `n` chunks. -/
def Long.chunks (m : Mem) : ℕ → ℕ → Long → Option Long
  | 0, _, h => some h
  | n + 1, s, h => do
    let h ← h.chunk m s
    chunks m n (s + 64) h

/-- The end of a long string, which is hashed first. -/
def Long.start (m : Mem) (s len : ℕ) : Option Long := do
  let x ← m.fetch64 (s + len - 40)
  let y ← m.fetch64 (s + len - 16)
  let f ← m.fetch64 (s + len - 56)
  let y := y + f
  let f ← m.fetch64 (s + len - 48)
  let f' ← m.fetch64 (s + len - 24)
  let z := hashLen16 (f + UInt64.ofNat len) f'
  let v ← weakHashLen32WithSeedsArray m (s + len - 64) (UInt64.ofNat len) z
  let w ← weakHashLen32WithSeedsArray m (s + len - 32) (y + k1) x
  let f ← m.fetch64 s
  return { x := x * k1 + f, y := y, z := z, v := v, w := w }

def Long.finish (h : Long) : UInt64 :=
  hashLen16 (hashLen16 h.v.first h.w.first + shiftMix h.y * k1 + h.z)
    (hashLen16 h.v.second h.w.second + h.x)

/-- `CityHash64`. The length is rounded to the next lower multiple of 64 for the loop. -/
def cityHash64 (m : Mem) (s len : ℕ) : Option UInt64 :=
  if len ≤ 32 then
    if len ≤ 16 then hashLen0to16 m s len else hashLen17to32 m s len
  else if len ≤ 64 then hashLen33to64 m s len
  else do
    let h ← Long.start m s len
    let h ← Long.chunks m ((len - 1) / 64) s h
    return h.finish

/-! ### Two memories -/

/-- Two computations finish with the same result. -/
def Agree {α : Type} (x y : Option α) : Prop := ∃ a, x = some a ∧ y = some a

section

variable {α β : Type} {x y : Option α} {f g : α → Option β}

theorem Agree.pure (a : α) : Agree (some a) (some a) := ⟨a, rfl, rfl⟩

theorem Agree.bind (h : Agree x y) (hf : ∀ a, Agree (f a) (g a)) : Agree (x >>= f) (y >>= g) := by
  obtain ⟨a, rfl, rfl⟩ := h
  exact hf a

end

/-- The `len` bytes at `s` in one memory and at `s'` in the other are mapped and the same. -/
def Same (m m' : Mem) (s s' len : ℕ) : Prop := ∀ i < len, Agree (m (s + i)) (m' (s' + i))

variable {m m' : Mem} {s s' len : ℕ}

/-- A part of the bytes. -/
theorem Same.slice (h : Same m m' s s' len) {a a' n k : ℕ} (ha : a = s + k) (ha' : a' = s' + k)
    (hk : k + n ≤ len) : Same m m' a a' n := by
  intro i hi
  subst ha ha'
  rw [Nat.add_assoc, Nat.add_assoc]
  exact h (k + i) (by omega)

theorem Same.byte (h : Same m m' s s' len) {a a' k : ℕ} (ha : a = s + k) (ha' : a' = s' + k)
    (hk : k + 1 ≤ len) : Agree (m a) (m' a') := by
  subst ha ha'
  exact h k hk

theorem Same.load (h : Same m m' s s' len) : Agree (m.load s len) (m'.load s' len) := by
  induction len generalizing s s' with
  | zero => exact .pure 0
  | succ n ih =>
    refine (h.byte (k := 0) rfl rfl (by omega)).bind fun b => ?_
    refine (ih (h.slice (k := 1) rfl rfl (by omega))).bind fun rest => ?_
    exact .pure _

section

variable {a a' k : ℕ}

theorem Same.fetch64 (h : Same m m' s s' len) (ha : a = s + k) (ha' : a' = s' + k)
    (hk : k + 8 ≤ len) : Agree (m.fetch64 a) (m'.fetch64 a') :=
  (h.slice ha ha' hk).load.bind fun _ => .pure _

theorem Same.fetch32 (h : Same m m' s s' len) (ha : a = s + k) (ha' : a' = s' + k)
    (hk : k + 4 ≤ len) : Agree (m.fetch32 a) (m'.fetch32 a') :=
  (h.slice ha ha' hk).load.bind fun _ => .pure _

/-- The 32 bytes of a weak hash. -/
theorem Same.weak (h : Same m m' s s' len) (ha : a = s + k) (ha' : a' = s' + k) (hk : k + 32 ≤ len)
    (u v : UInt64) :
    Agree (weakHashLen32WithSeedsArray m a u v) (weakHashLen32WithSeedsArray m' a' u v) := by
  have h32 := h.slice ha ha' hk
  refine (h32.fetch64 (k := 0) rfl rfl (by omega)).bind fun w => ?_
  refine (h32.fetch64 rfl rfl (by omega)).bind fun x => ?_
  refine (h32.fetch64 rfl rfl (by omega)).bind fun y => ?_
  refine (h32.fetch64 rfl rfl (by omega)).bind fun z => ?_
  exact .pure _

end

/-! ### Every length -/

theorem Same.hashLen0to16 (h : Same m m' s s' len) :
    Agree (hashLen0to16 m s len) (hashLen0to16 m' s' len) := by
  rw [City.hashLen0to16, City.hashLen0to16]
  split_ifs with h8 h4 h0
  · refine (h.fetch64 (k := 0) rfl rfl (by omega)).bind fun a => ?_
    refine (h.fetch64 (k := len - 8) (by omega) (by omega) (by omega)).bind fun b => ?_
    exact .pure _
  · refine (h.fetch32 (k := 0) rfl rfl (by omega)).bind fun a => ?_
    refine (h.fetch32 (k := len - 4) (by omega) (by omega) (by omega)).bind fun b => ?_
    exact .pure _
  · refine (h.byte (k := 0) rfl rfl (by omega)).bind fun a => ?_
    refine (h.byte (k := len / 2) rfl rfl (by omega)).bind fun b => ?_
    refine (h.byte (k := len - 1) (by omega) (by omega) (by omega)).bind fun c => ?_
    exact .pure _
  · exact .pure _

theorem Same.hashLen17to32 (h : Same m m' s s' len) (hlen : 17 ≤ len) :
    Agree (hashLen17to32 m s len) (hashLen17to32 m' s' len) := by
  refine (h.fetch64 (k := 0) rfl rfl (by omega)).bind fun a => ?_
  refine (h.fetch64 (k := 8) rfl rfl (by omega)).bind fun b => ?_
  refine (h.fetch64 (k := len - 8) (by omega) (by omega) (by omega)).bind fun c => ?_
  refine (h.fetch64 (k := len - 16) (by omega) (by omega) (by omega)).bind fun d => ?_
  exact .pure _

theorem Same.hashLen33to64 (h : Same m m' s s' len) (hlen : 33 ≤ len) :
    Agree (hashLen33to64 m s len) (hashLen33to64 m' s' len) := by
  refine (h.fetch64 (k := 0) rfl rfl (by omega)).bind fun a => ?_
  refine (h.fetch64 (k := 8) rfl rfl (by omega)).bind fun b => ?_
  refine (h.fetch64 (k := len - 24) (by omega) (by omega) (by omega)).bind fun c => ?_
  refine (h.fetch64 (k := len - 32) (by omega) (by omega) (by omega)).bind fun d => ?_
  refine (h.fetch64 (k := 16) rfl rfl (by omega)).bind fun e => ?_
  refine (h.fetch64 (k := 24) rfl rfl (by omega)).bind fun f => ?_
  refine (h.fetch64 (k := len - 8) (by omega) (by omega) (by omega)).bind fun g => ?_
  refine (h.fetch64 (k := len - 16) (by omega) (by omega) (by omega)).bind fun u => ?_
  exact .pure _

theorem Same.start (h : Same m m' s s' len) (hlen : 64 ≤ len) :
    Agree (Long.start m s len) (Long.start m' s' len) := by
  refine (h.fetch64 (k := len - 40) (by omega) (by omega) (by omega)).bind fun x => ?_
  refine (h.fetch64 (k := len - 16) (by omega) (by omega) (by omega)).bind fun y => ?_
  refine (h.fetch64 (k := len - 56) (by omega) (by omega) (by omega)).bind fun _ => ?_
  refine (h.fetch64 (k := len - 48) (by omega) (by omega) (by omega)).bind fun _ => ?_
  refine (h.fetch64 (k := len - 24) (by omega) (by omega) (by omega)).bind fun _ => ?_
  refine (h.weak (k := len - 64) (by omega) (by omega) (by omega) _ _).bind fun v => ?_
  refine (h.weak (k := len - 32) (by omega) (by omega) (by omega) _ _).bind fun w => ?_
  refine (h.fetch64 (k := 0) rfl rfl (by omega)).bind fun _ => ?_
  exact .pure _

theorem Same.chunk (h : Same m m' s s' 64) (l : Long) : Agree (l.chunk m s) (l.chunk m' s') := by
  refine (h.fetch64 (k := 8) rfl rfl (by omega)).bind fun _ => ?_
  refine (h.fetch64 (k := 48) rfl rfl (by omega)).bind fun _ => ?_
  refine (h.fetch64 (k := 40) rfl rfl (by omega)).bind fun _ => ?_
  refine (h.weak (k := 0) rfl rfl (by omega) _ _).bind fun v => ?_
  refine (h.fetch64 (k := 16) rfl rfl (by omega)).bind fun _ => ?_
  refine (h.weak (k := 32) rfl rfl (by omega) _ _).bind fun w => ?_
  exact .pure _

/-- The loop stays in the bytes: they are at least as many as its chunks need. -/
theorem Same.chunks {n : ℕ} (h : Same m m' s s' len) (hn : 64 * n ≤ len) (l : Long) :
    Agree (Long.chunks m n s l) (Long.chunks m' n s' l) := by
  induction n generalizing s s' len l with
  | zero => exact .pure l
  | succ n ih =>
    refine ((h.slice (k := 0) rfl rfl (by omega)).chunk l).bind fun l' => ?_
    exact ih (h.slice (n := len - 64) (k := 64) rfl rfl (by omega)) (by omega) l'

/-- `CityHash64` finishes, and its result depends on nothing but the bytes of the key. -/
theorem Same.hash (h : Same m m' s s' len) :
    Agree (cityHash64 m s len) (cityHash64 m' s' len) := by
  rw [cityHash64, cityHash64]
  split_ifs with h32 h16 h64
  · exact h.hashLen0to16
  · exact h.hashLen17to32 (by omega)
  · exact h.hashLen33to64 (by omega)
  · refine (h.start (by omega)).bind fun l => ?_
    refine (h.chunks (by omega) l).bind fun l' => ?_
    exact .pure _

/-! ### The hash of the model -/

/-- A memory with nothing but the bytes of a key. -/
def Mem.ofList (key : List UInt8) : Mem := fun i => key[i]?

/-- The hash as a function of the key; commands are modelled over any such function. -/
def hashOf (key : List UInt8) : ℕ := ((cityHash64 (.ofList key) 0 key.length).getD 0).toNat

/-- The key is at `s` in the memory. -/
def KeyAt (m : Mem) (s : ℕ) (key : List UInt8) : Prop :=
  ∀ i, (hi : i < key.length) → m (s + i) = some key[i]

theorem KeyAt.same {key : List UInt8} (h : KeyAt m s key) :
    Same m (.ofList key) s 0 key.length := by
  intro i hi
  refine ⟨key[i], h i hi, ?_⟩
  rw [Nat.zero_add]
  exact List.getElem?_eq_getElem hi

/-- Wherever a key of any length lies in memory and whatever lies around it, mapped or not,
`CityHash64` of its address and length is defined, and is the hash of the key. -/
theorem KeyAt.cityHash64_eq {key : List UInt8} (h : KeyAt m s key) :
    cityHash64 m s key.length = some (UInt64.ofNat (hashOf key)) := by
  obtain ⟨x, hx, hkey⟩ := h.same.hash
  rw [hx, hashOf, hkey, Option.getD_some, UInt64.ofNat_toNat]

/-- A pointer to the key is as good as the key: the slots that are probed for it are those of
the commands. -/
theorem KeyAt.probes (d : Device) (hd : d.hash = hashOf) {key : List UInt8} (h : KeyAt m s key) :
    ∃ x, cityHash64 m s key.length = some x ∧
      ∀ cnt, d.getHashIdx (x.toNat % 2 ^ 32) cnt = d.getHashIdx (d.hash32 key) cnt := by
  have hlt : hashOf key < 2 ^ 64 := UInt64.toNat_lt _
  refine ⟨_, h.cityHash64_eq, fun cnt => ?_⟩
  rw [Device.hash32, hd, UInt64.toNat_ofNat_of_lt' hlt]

/-- A record of a batch: the length of a key, the key, the length of a value. -/
def batchRecord : List UInt8 := [5, 104, 101, 108, 108, 111, 3, 0, 0, 0]

/-- The key of the record. -/
theorem KeyAt.probes_batch : ∃ x, cityHash64 (.ofList batchRecord) 1 5 = some x ∧
    ∀ cnt, ({ Flash.smallDevice with hash := hashOf } : Device).getHashIdx (x.toNat % 2 ^ 32) cnt =
      ({ Flash.smallDevice with hash := hashOf } : Device).getHashIdx
        (hashOf [104, 101, 108, 108, 111] % 2 ^ 32) cnt := by
  have hkey : KeyAt (.ofList batchRecord) 1 [104, 101, 108, 108, 111] := by
    unfold KeyAt
    decide
  exact KeyAt.probes { Flash.smallDevice with hash := hashOf } rfl hkey

end Virtkv.City
