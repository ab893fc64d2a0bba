import Pdk.Io.ArchiveLoad
import Pdk.Io.ArchiveStore

/-!
# Storing and loading again

A list of values is stored into a new file and loaded from it, with buffers of any two sizes. The
buffer of the store side grows with the largest block, the buffer of the load side does not: a
string that is longer than the load buffer is stored and can never be loaded (`length_of_loadAll`).
All other lists come back as they were.
-/

namespace Pdk.Io

open Foundation

/-! ## Values -/

/-- What `operator<<` or `write_string` stores. -/
inductive Value where
  | scalar (v : Scalar)
  | string (s : List UInt8)
  deriving DecidableEq, Repr

inductive ValueType where
  | scalar (t : ScalarType)
  | string
  deriving DecidableEq, Repr

namespace Value

def type : Value → ValueType
  | scalar v => .scalar v.type
  | string _ => .string

/-- The call that stores the value. -/
def call : Value → StoreCall
  | scalar v => .store v
  | string s => .writeString s

end Value

namespace Archive

/-- `operator>>` or `read_string(rString)`. -/
def loadValue (a : Archive) : ValueType → Except String Value × Archive
  | .scalar t =>
    let (v, a') := a.load t
    (v.map .scalar, a')
  | .string =>
    let (s, a') := a.readString
    (s.map .string, a')

/-- The loads one after the other, up to the first one that throws. -/
def loadAll (a : Archive) : List ValueType → Except String (List Value) × Archive
  | [] => (.ok [], a)
  | t :: types =>
    match a.loadValue t with
    | (.error e, a') => (.error e, a')
    | (.ok v, a') =>
      let (vs, last) := a'.loadAll types
      (vs.map (v :: ·), last)

/-- Store the values into a new file, close the archive, and load values of the same types from that
    file. -/
def roundTrip (nStore nLoad : CInt) (values : List Value) :
    Option (Except String (List Value) × Archive) :=
  ((new ⟨[], []⟩ .store nStore).runCalls (values.map Value.call)).map fun a =>
    (new ⟨[], a.close.file.written⟩ .load nLoad).loadAll (values.map Value.type)

/-! ## Strings that are too long -/

namespace Loading

variable {size : ℕ} {a a' : Archive}

/-- What is read is not longer than the buffer. -/
theorem length_read (h : Loading size a) {n : ℕ} {bytes : List UInt8}
    (hread : a.read n = (.ok bytes, a')) : Loading size a' ∧ bytes.length ≤ size := by
  obtain ⟨a'', hloading, hok | herror⟩ := h.read_spec n
  · obtain ⟨hsize, -, heq, -⟩ := hok
    rw [hread] at heq
    cases heq
    refine ⟨hloading, ?_⟩
    rw [List.length_take]
    omega
  · rw [hread] at herror
    cases herror.2.1

/-- A load leaves an archive behind from which can be loaded. -/
theorem read (h : Loading size a) (n : ℕ) : Loading size (a.read n).2 := by
  obtain ⟨a'', hloading, hok | herror⟩ := h.read_spec n
  · rw [hok.2.2.1]
    exact hloading
  · rw [herror.2.1]
    exact hloading

theorem readCount (h : Loading size a) : Loading size a.readCount.2 :=
  h.read _

theorem length_readString (h : Loading size a) {s : List UInt8}
    (hread : a.readString = (.ok s, a')) : Loading size a' ∧ s.length ≤ size := by
  have hcount := h.readCount
  unfold readString at hread
  split at hread
  · cases hread
  · rename_i len a₁ hres
    rw [hres] at hcount
    split at hread
    · exact hcount.length_read hread
    · cases hread
      exact ⟨hcount, Nat.zero_le _⟩

theorem length_loadValue (h : Loading size a) {t : ValueType} {v : Value}
    (hload : a.loadValue t = (.ok v, a')) :
    Loading size a' ∧ ∀ s, v = .string s → s.length ≤ size := by
  cases t with
  | scalar t =>
    simp only [loadValue, load, Prod.mk.injEq] at hload
    obtain ⟨hv, rfl⟩ := hload
    refine ⟨h.read _, ?_⟩
    rintro s rfl
    cases hread : (a.read t.size).1 with
    | error e => simp [hread, Except.map] at hv
    | ok bytes => simp [hread, Except.map] at hv
  | string =>
    obtain ⟨⟨r, a₁⟩, hres⟩ : ∃ p, a.readString = p := ⟨_, rfl⟩
    simp only [loadValue, hres, Prod.mk.injEq] at hload
    obtain ⟨hv, rfl⟩ := hload
    cases r with
    | error e => cases hv
    | ok s =>
      cases hv
      obtain ⟨hloading, hlen⟩ := h.length_readString hres
      refine ⟨hloading, ?_⟩
      rintro _ ⟨⟩
      exact hlen

end Loading

/-- A string that is loaded is not longer than the load buffer. -/
theorem length_of_loadAll {size : ℕ} {a a' : Archive} (h : Loading size a) {types : List ValueType}
    {values : List Value} (hload : a.loadAll types = (.ok values, a')) :
    ∀ s, Value.string s ∈ values → s.length ≤ size := by
  induction types generalizing a values with
  | nil =>
    cases hload
    nofun
  | cons t types ih =>
    unfold loadAll at hload
    split at hload
    · cases hload
    · rename_i v a₁ hv
      obtain ⟨hloading, hlen⟩ := h.length_loadValue hv
      obtain ⟨⟨r, a₂⟩, hrest⟩ : ∃ p, a₁.loadAll types = p := ⟨_, rfl⟩
      simp only [hrest, Prod.mk.injEq] at hload
      obtain ⟨hvs, rfl⟩ := hload
      cases r with
      | error e => cases hvs
      | ok vs =>
        cases hvs
        intro s hs
        rcases List.mem_cons.mp hs with hfirst | hlater
        · exact hlen s hfirst.symm
        · exact ih hloading hrest s hlater

/-! ## Loading what was stored -/

namespace Loading

variable {size : ℕ} {a : Archive} {rest : List UInt8}

/-- A block that fits into the buffer is read as it was written. -/
theorem read_block (h : Loading size a) {bytes : List UInt8} (hunread : a.unread = bytes ++ rest)
    (hsize : bytes.length ≤ size) :
    ∃ a', a.read bytes.length = (.ok bytes, a') ∧ Loading size a' ∧ a'.unread = rest := by
  obtain ⟨a', hloading, hok | herror⟩ := h.read_spec bytes.length
  · obtain ⟨-, -, hread, hdrop⟩ := hok
    rw [hunread, List.take_left] at hread
    rw [hunread, List.drop_left] at hdrop
    exact ⟨a', hread, hloading, hdrop⟩
  · exfalso
    apply herror.1
    rw [hunread, List.length_append]
    exact ⟨hsize, Nat.le_add_right _ _⟩

theorem load_scalar (h : Loading size a) (henough : 128 ≤ size) (v : Scalar)
    (hunread : a.unread = v.encode ++ rest) :
    ∃ a', a.load v.type = (.ok v, a') ∧ Loading size a' ∧ a'.unread = rest := by
  have hlen := v.length_encode
  have hle := v.type.size_le
  obtain ⟨a', hread, hloading, hrest⟩ := h.read_block hunread (by omega)
  refine ⟨a', ?_, hloading, hrest⟩
  rw [hlen] at hread
  rw [load, hread]
  simp only [Except.map, v.decode_encode]

/-- The count in front of a string. -/
theorem read_count (h : Loading size a) (henough : 128 ≤ size) {s : List UInt8}
    (hs : s.length ≤ size) (hunread : a.unread = toLe 4 s.length ++ s ++ rest) :
    ∃ a', a.readCount = (.ok (UInt32.ofNat s.length), a') ∧ Loading size a' ∧
      a'.unread = s ++ rest := by
  have hlen : (toLe 4 s.length).length = 4 := length_toLe _ _
  have hsize := h.size_lt
  rw [List.append_assoc] at hunread
  obtain ⟨a', hread, hloading, hrest⟩ := h.read_block hunread (by omega)
  refine ⟨a', ?_, hloading, hrest⟩
  rw [hlen] at hread
  rw [Archive.readCount, ScalarType.size, hread]
  simp only [Except.map]
  rw [ofLe_toLe (k := 4) (by omega)]

theorem load_string (h : Loading size a) (henough : 128 ≤ size) {s : List UInt8}
    (hs : s.length ≤ size) (hunread : a.unread = toLe 4 s.length ++ s ++ rest) :
    ∃ a', a.readString = (.ok s, a') ∧ Loading size a' ∧ a'.unread = rest := by
  have hsize := h.size_lt
  have hfit : s.length < 2 ^ 32 := by omega
  obtain ⟨a₁, hcount, hloading₁, hrest₁⟩ := h.read_count henough hs hunread
  have htoNat : (UInt32.ofNat s.length).toNat = s.length := UInt32.toNat_ofNat_of_lt hfit
  rw [Archive.readString, hcount]
  simp only
  by_cases hnil : s = []
  · subst hnil
    refine ⟨a₁, ?_, hloading₁, hrest₁⟩
    simp
  · have hpos : UInt32.ofNat s.length > 0 := by
      rw [gt_iff_lt, UInt32.lt_iff_toNat_lt, htoNat]
      exact List.length_pos_of_ne_nil hnil
    rw [if_pos hpos, htoNat]
    exact hloading₁.read_block hrest₁ hs

/-- A value that fits into the buffer is loaded as it was stored. -/
theorem load_value (h : Loading size a) (henough : 128 ≤ size) {v : Value}
    (hfree : ∀ s, v = .string s → 0 ∉ s) (hs : ∀ s, v = .string s → s.length ≤ size)
    (hunread : a.unread = v.call.encoding ++ rest) :
    ∃ a', a.loadValue v.type = (.ok v, a') ∧ Loading size a' ∧ a'.unread = rest := by
  cases v with
  | scalar v =>
    obtain ⟨a', hload, hloading, hrest⟩ := h.load_scalar henough v hunread
    refine ⟨a', ?_, hloading, hrest⟩
    simp only [loadValue, Value.type, hload]
    rfl
  | string s =>
    have hcstring : Bytes.cString s = s := Bytes.cString_eq_self (hfree s rfl)
    rw [Value.call, StoreCall.encoding, hcstring] at hunread
    obtain ⟨a', hload, hloading, hrest⟩ := h.load_string henough (hs s rfl) hunread
    refine ⟨a', ?_, hloading, hrest⟩
    simp only [loadValue, Value.type, hload]
    rfl

theorem load_all (h : Loading size a) (henough : 128 ≤ size) {values : List Value}
    (hfree : ∀ s, Value.string s ∈ values → 0 ∉ s)
    (hs : ∀ s, Value.string s ∈ values → s.length ≤ size)
    (hunread : a.unread = encodings (values.map Value.call) ++ rest) :
    ∃ a', a.loadAll (values.map Value.type) = (.ok values, a') ∧ Loading size a' ∧ a'.unread = rest := by
  induction values generalizing a with
  | nil => exact ⟨a, rfl, h, hunread⟩
  | cons v values ih =>
    have hfirst : a.unread = v.call.encoding ++ (encodings (values.map Value.call) ++ rest) := by
      rw [hunread, ← List.append_assoc]
      rfl
    obtain ⟨a₁, hload, hloading₁, hrest₁⟩ := h.load_value henough
      (fun s hv => hfree s (hv ▸ List.mem_cons_self)) (fun s hv => hs s (hv ▸ List.mem_cons_self))
      hfirst
    obtain ⟨a₂, hloads, hloading₂, hrest₂⟩ := ih hloading₁
      (fun s hv => hfree s (List.mem_cons_of_mem v hv))
      (fun s hv => hs s (List.mem_cons_of_mem v hv)) hrest₁
    refine ⟨a₂, ?_, hloading₂, hrest₂⟩
    simp only [List.map_cons, loadAll, hload, hloads]
    rfl

end Loading

/-! ## The round trip -/

/-- Values that fit into some load buffer are stored without a loss. -/
theorem written_values (nStore nLoad : CInt) {values : List Value}
    (hs : ∀ s, Value.string s ∈ values → s.length ≤ bufSize nLoad) {a : Archive}
    (hrun : (new ⟨[], []⟩ .store nStore).runCalls (values.map Value.call) = some a) :
    a.close.file.written = encodings (values.map Value.call) := by
  have hload := bufSize_lt nLoad
  have hstore := bufSize_lt nStore
  -- `strlen` counts at most the characters of the string
  have hlen : ∀ s, Value.string s ∈ values → (Bytes.cString s).length < 2 ^ 31 := by
    intro s hmem
    have hle := hs s hmem
    have hcut := Bytes.length_cString_le s
    omega
  refine (written_iff ⟨[], []⟩ nStore _ hrun).mpr ⟨?_, ?_⟩
  · apply BufferedWriter.fits_of_small _ (by rw [uintLimit]; omega) (Nat.zero_le _)
    intro xs hxs
    rw [uintLimit]
    simp only [List.mem_flatMap, List.mem_map] at hxs
    obtain ⟨c, ⟨v, hv, rfl⟩, hop⟩ := hxs
    cases v with
    | scalar v =>
      simp only [Value.call, StoreCall.ops, List.mem_singleton, WriterOp.block.injEq] at hop
      have hsize := v.type.size_le
      rw [hop, v.length_encode]
      omega
    | string s =>
      have hshort := hlen s hv
      simp only [Value.call, StoreCall.ops, List.mem_cons, WriterOp.block.injEq,
        List.not_mem_nil, or_false] at hop
      rcases hop with rfl | rfl
      · rw [length_toLe]
        decide
      · rw [List.length_take]
        omega
  · intro c hc
    obtain ⟨v, hv, rfl⟩ := List.mem_map.mp hc
    cases v with
    | scalar v => trivial
    | string s =>
      have hshort := hlen s hv
      rw [Value.call, StoreCall.Counted, uintLimit]
      omega

/-- **Round trip.** For NUL-free strings and any two buffer sizes, the same list comes back and the
    whole file is consumed exactly when every string fits into the load buffer. -/
theorem roundTrip_iff (nStore nLoad : CInt) (values : List Value)
    (hfree : ∀ s, Value.string s ∈ values → 0 ∉ s) :
    (∃ a, roundTrip nStore nLoad values = some (.ok values, a) ∧ a.unread = []) ↔
      ∀ s, Value.string s ∈ values → s.length ≤ bufSize nLoad := by
  obtain ⟨a, hrun, -, -⟩ :=
    runCalls_writer (storing_new ⟨[], []⟩ nStore) (values.map Value.call)
  have htrip : roundTrip nStore nLoad values =
      some ((new ⟨[], a.close.file.written⟩ .load nLoad).loadAll (values.map Value.type)) := by
    rw [roundTrip, hrun, Option.map_some]
  rw [htrip]
  have hloading := loading_new ⟨[], a.close.file.written⟩ nLoad
  constructor
  · rintro ⟨a', hload, -⟩
    exact length_of_loadAll hloading (Option.some.inj hload)
  · intro hs
    have hunread : (new ⟨[], a.close.file.written⟩ .load nLoad).unread =
        encodings (values.map Value.call) ++ [] := by
      rw [unread_new, List.append_nil]
      exact written_values nStore nLoad hs hrun
    obtain ⟨a', hload, -, hrest⟩ := hloading.load_all (le_bufSize nLoad) hfree hs hunread
    exact ⟨a', congrArg some hload, hrest⟩

/-- A string of the letter `a`. -/
theorem zero_notMem_replicate (n : ℕ) : 0 ∉ List.replicate n (97 : UInt8) := by
  intro hmem
  cases List.eq_of_mem_replicate hmem

/-- An archive with a string of 200 characters and the smallest load buffer that holds it. -/
theorem roundTrip_iff_fits : ∃ a, roundTrip ⟨0, by decide⟩ ⟨200, by decide⟩
    [.string (List.replicate 200 97), .scalar (.bool true)] =
      some (.ok [.string (List.replicate 200 97), .scalar (.bool true)], a) ∧ a.unread = [] := by
  refine (roundTrip_iff ⟨0, by decide⟩ ⟨200, by decide⟩ _ ?_).mpr ?_
  · intro s hs
    simp only [List.mem_cons, Value.string.injEq, reduceCtorEq, List.not_mem_nil, or_false] at hs
    subst hs
    exact zero_notMem_replicate 200
  · intro s hs
    simp only [List.mem_cons, Value.string.injEq, reduceCtorEq, List.not_mem_nil, or_false] at hs
    subst hs
    rw [List.length_replicate]
    decide

/-- A string of 129 characters does not come back through a load buffer of 128 bytes. -/
theorem roundTrip_counterexample :
    ¬∀ (nStore nLoad : CInt) (values : List Value), (∀ s, Value.string s ∈ values → 0 ∉ s) →
      ∃ a, roundTrip nStore nLoad values = some (.ok values, a) ∧ a.unread = [] := by
  intro h
  obtain ⟨a', hload, -⟩ := h ⟨128, by decide⟩ ⟨128, by decide⟩ [.string (List.replicate 129 97)] (by
    intro s hs
    simp only [List.mem_cons, Value.string.injEq, List.not_mem_nil, or_false] at hs
    subst hs
    exact zero_notMem_replicate 129)
  obtain ⟨a, hrun, -, -⟩ := runCalls_writer (storing_new ⟨[], []⟩ ⟨128, by decide⟩)
    ([.string (List.replicate 129 97)].map Value.call)
  rw [roundTrip, hrun, Option.map_some] at hload
  have hlen := length_of_loadAll (loading_new ⟨[], a.close.file.written⟩ ⟨128, by decide⟩)
    (Option.some.inj hload) (List.replicate 129 97) List.mem_cons_self
  rw [List.length_replicate] at hlen
  exact absurd hlen (by decide)

end Archive

end Pdk.Io
