import Pdk.Config.IniFileInt
import Pdk.Foundation.Fields
import Pdk.Foundation.OrderedMap

/-!
# The host specifications of `IcmpMonitor`

Model of `IcmpMonitor::start` and `IcmpMonitor::add_manager` in `include/icmp.hpp`, and of `tokenize`
in `src/util.cpp`. A host is specified as `addr`, `addr:priority` or `addr:priority:bind`.
`add_manager` identifies the fields by the number and the index of the tokens, and `strtok_r` has
dropped the empty fields before: a specification is read by position if and only if none of its
fields is empty (`add_manager_by_position_iff`).

An access behind the end of the vector has no result.
-/

namespace Pdk.Net

open Foundation
open Pdk.Config

def colon : UInt8 := 58

/-- `tokenize(pszLine, value, delim)`. -/
def tokenize (pszLine : Str) (delim : List UInt8) : List Str :=
  tokens (fun c => c ∈ delim) (Bytes.cString pszLine)

/-- The arguments that `IcmpManager::start` is called with. -/
structure HostStart where
  pszAddr : Str
  -- no value where C leaves `atoi` undefined
  priority : Option CInt
  -- no value for `nullptr`
  pszBind : Option Str
  deriving DecidableEq

/-- What `add_manager` takes from the vector `info`. -/
def hostStart (info : List Str) : Option HostStart := do
  let priority ← (if info.length = 1 then some (some ⟨1, int32_one⟩) else info[1]?.map atoi)
  let pszBind ← (if info.length = 3 then info[2]?.map some else some none)
  let pszAddr ← info[0]?
  return ⟨pszAddr, priority, pszBind⟩

/-- A monitor with its managers, each with the arguments it was started with. -/
structure IcmpMonitor where
  managers : OrderedMap Str HostStart

namespace IcmpMonitor

/-- `add_manager(pszAddr)`. -/
def addManager (m : IcmpMonitor) (pszAddr : Str) : Option IcmpMonitor :=
  (hostStart (tokenize pszAddr [colon])).map fun args =>
    { managers := m.managers.insert (Bytes.cString pszAddr) args }

/-- `start(pszAddrs)` up to the creation of the thread; `uid` is the result of `getuid`. -/
def start (m : IcmpMonitor) (uid : ℕ) (pszAddrs : Str) : Option IcmpMonitor :=
  -- only for root
  if uid ≠ 0 then some m
  else (tokenize pszAddrs [space]).foldlM (fun m addr => m.addManager addr) m

end IcmpMonitor

/-! ## Specifications -/

/-- One to three fields, none of which has a colon; a field may be empty. -/
structure HostSpec where
  fields : List Str
  pos : 1 ≤ fields.length
  le_three : fields.length ≤ 3
  no_colon : ∀ field ∈ fields, colon ∉ field

namespace HostSpec

/-- The fields with a colon between neighbours. -/
def text (spec : HostSpec) : Str :=
  [colon].intercalate spec.fields

/-- What the fields say by position: the address, the priority and the address to bind to, with the
    defaults for those that are absent. -/
def byPosition (spec : HostSpec) : HostStart where
  pszAddr := spec.fields.headD []
  priority := match spec.fields[1]? with
    | none => some ⟨1, int32_one⟩
    | some field => atoi field
  pszBind := spec.fields[2]?

end HostSpec

/-! ## Tokens -/

/-- A token is not empty, and has neither a delimiter nor a zero byte. -/
theorem mem_tokenize {pszLine token : Str} {delim : List UInt8} (h : token ∈ tokenize pszLine delim) :
    token ≠ [] ∧ 0 ∉ token ∧ ∀ c ∈ delim, c ∉ token := by
  rw [tokenize, tokens_eq] at h
  have hmem := mem_of_mem_occupied h
  refine ⟨ne_nil_of_mem_occupied h, fun hzero => ?_, fun c hc htoken => ?_⟩
  · exact Bytes.zero_notMem_cString pszLine (hmem 0 hzero).1
  · have hdelim := (hmem c htoken).2
    simp [hc] at hdelim

/-! ## The vector of tokens -/

/-- One token is enough to stay within the vector. -/
theorem isSome_hostStart (info : List Str) : (hostStart info).isSome ↔ info ≠ [] := by
  match info with
  | [] => simp [hostStart]
  | [addr] => simp [hostStart]
  | [addr, priority] => simp [hostStart]
  | [addr, priority, pszBind] => simp [hostStart]
  | _ :: _ :: _ :: _ :: _ => simp [hostStart]

/-- An address to bind to is taken from three tokens only. -/
theorem length_of_pszBind {info : List Str} {args : HostStart} (h : hostStart info = some args)
    (hbind : args.pszBind ≠ none) : info.length = 3 := by
  by_contra hlen
  simp only [hostStart, if_neg hlen, Option.bind_eq_bind, Option.bind_eq_some_iff, Option.pure_def,
    Option.some.injEq] at h
  obtain ⟨priority, -, pszBind, rfl, pszAddr, -, rfl⟩ := h
  exact hbind rfl

theorem atoi_nil : atoi [] = some ⟨0, by decide⟩ := rfl

namespace HostSpec

variable {spec : HostSpec}

/-- `tokenize` finds the fields that are not empty. -/
theorem tokenize_text (hzero : 0 ∉ spec.text) :
    tokenize spec.text [colon] = spec.fields.filter fun field => !field.isEmpty := by
  have hne : spec.fields ≠ [] := List.ne_nil_of_length_pos spec.pos
  have hdelim : (fun c => decide (c ∈ [colon])) = fun c => c == colon := by
    funext c
    rw [Bool.eq_iff_iff]
    simp
  have hsplit : spec.text.splitOnP (fun c => c ∈ [colon]) = spec.fields := by
    rw [hdelim, ← List.splitOn_eq_splitOnP]
    exact List.splitOn_intercalate colon spec.no_colon hne
  rw [tokenize, tokens_eq, Bytes.cString_eq_self hzero, occupied, hsplit]

/-- All fields at their places are read by position. -/
theorem hostStart_fields (spec : HostSpec) : hostStart spec.fields = some spec.byPosition := by
  obtain ⟨fields, hpos, hle, -⟩ := spec
  match fields with
  | [addr] => rfl
  | [addr, priority] => rfl
  | [addr, priority, pszBind] => rfl
  | _ :: _ :: _ :: _ :: _ => exact absurd hle (by simp only [List.length_cons]; omega)

theorem forall_ne_nil_of_length {fields : List Str}
    (h : (fields.filter fun field => !field.isEmpty).length = fields.length) :
    ∀ field ∈ fields, field ≠ [] := by
  intro field hfield
  have hall := List.length_filter_eq_length_iff.mp h field hfield
  simpa using hall

/-- A dropped field shows: the address to bind to is missing, the priority is the default one, or
    the priority has become the address. -/
theorem hostStart_occupied_iff (hne : spec.text ≠ []) :
    hostStart (spec.fields.filter fun field => !field.isEmpty) = some spec.byPosition ↔
      ∀ field ∈ spec.fields, field ≠ [] := by
  constructor
  · intro h
    obtain ⟨fields, hpos, hle, hcolon⟩ := spec
    match fields with
    | [addr] =>
      simpa [text] using hne
    | [addr, priority] =>
      by_cases haddr : addr = []
      · by_cases hpriority : priority = []
        · simp [haddr, hpriority, hostStart] at h
        · simp [haddr, hpriority, hostStart, byPosition] at h
      · by_cases hpriority : priority = []
        · simp [haddr, hpriority, hostStart, byPosition, atoi_nil] at h
        · simp [haddr, hpriority]
    | [addr, priority, pszBind] =>
      have hlen := length_of_pszBind h (by simp [byPosition])
      exact forall_ne_nil_of_length hlen
    | _ :: _ :: _ :: _ :: _ => exact absurd hle (by simp only [List.length_cons]; omega)
  · intro h
    have hfilter : (spec.fields.filter fun field => !field.isEmpty) = spec.fields := by
      rw [List.filter_eq_self]
      intro field hfield
      simpa using h field hfield
    rw [hfilter, hostStart_fields]

end HostSpec

namespace IcmpMonitor

/-- `add_manager` keeps what it has read under the whole specification. -/
theorem addManager_eq (m : IcmpMonitor) {spec : HostSpec} (hzero : 0 ∉ spec.text) :
    m.addManager spec.text =
      (hostStart (spec.fields.filter fun field => !field.isEmpty)).map fun args =>
        { managers := m.managers.insert spec.text args } := by
  rw [addManager, spec.tokenize_text hzero, Bytes.cString_eq_self hzero]

theorem addManager_by_position_iff (m : IcmpMonitor) {spec : HostSpec} (hzero : 0 ∉ spec.text) :
    (∃ m', m.addManager spec.text = some m' ∧
        m'.managers.lookup spec.text = some spec.byPosition) ↔
      hostStart (spec.fields.filter fun field => !field.isEmpty) = some spec.byPosition := by
  rw [addManager_eq m hzero]
  constructor
  · rintro ⟨m', hm', hlookup⟩
    obtain ⟨args, hargs, rfl⟩ := Option.map_eq_some_iff.mp hm'
    rw [OrderedMap.lookup_insert_self] at hlookup
    rw [hargs, hlookup]
  · intro hargs
    rw [hargs]
    exact ⟨_, rfl, OrderedMap.lookup_insert_self _⟩

/-- A specification that `start` has obtained by splitting its argument at spaces is read by
    position, without an access behind the tokens, if and only if all of its fields are occupied. -/
theorem add_manager_by_position_iff (m : IcmpMonitor) (pszAddrs : Str) (spec : HostSpec)
    (h : spec.text ∈ tokenize pszAddrs [space]) :
    (∃ m', m.addManager spec.text = some m' ∧
        m'.managers.lookup spec.text = some spec.byPosition) ↔
      ∀ field ∈ spec.fields, field ≠ [] := by
  obtain ⟨hne, hzero, -⟩ := mem_tokenize h
  rw [addManager_by_position_iff m hzero, spec.hostStart_occupied_iff hne]

/-- `"h:2"`, the second word of an argument. -/
theorem add_manager_by_position_second :
    ∃ m', (⟨.empty⟩ : IcmpMonitor).addManager [104, colon, 50] = some m' ∧
      m'.managers.lookup [104, colon, 50] = some ⟨[104], some ⟨2, by decide⟩, none⟩ :=
  (add_manager_by_position_iff ⟨.empty⟩ [105, space, space, 104, colon, 50]
    ⟨[[104], [50]], by decide, by decide, by decide⟩ (by decide)).mpr (by decide)

/-- `"h::9"`: the address to bind to has become the priority. -/
theorem add_manager_by_position_counterexample :
    ¬∀ (m : IcmpMonitor) (pszAddrs : Str) (spec : HostSpec),
      spec.text ∈ tokenize pszAddrs [space] →
        ∃ m', m.addManager spec.text = some m' ∧
          m'.managers.lookup spec.text = some spec.byPosition := by
  intro h
  have hread := h ⟨.empty⟩ [104, colon, colon, 57]
    ⟨[[104], [], [57]], by decide, by decide, by decide⟩ (by decide)
  rw [addManager_by_position_iff _ (by decide)] at hread
  revert hread
  decide

/-! ## The whole argument -/

/-- What a token is read as depends on the token only. -/
theorem lookup_addManager {m m' : IcmpMonitor} {token : Str} (hzero : 0 ∉ token)
    (h : m.addManager token = some m') (key : Str) :
    m'.managers.lookup key =
      if key = token then hostStart (tokenize token [colon]) else m.managers.lookup key := by
  rw [addManager, Bytes.cString_eq_self hzero] at h
  obtain ⟨args, hargs, rfl⟩ := Option.map_eq_some_iff.mp h
  by_cases hkey : key = token
  · rw [if_pos hkey, hargs, hkey, OrderedMap.lookup_insert_self]
  · rw [if_neg hkey, OrderedMap.lookup_insert_of_ne _ hkey]

/-- The loop over the tokens: all of them are read, and nothing else changes. -/
theorem lookup_addManagers {tokens : List Str} (hzero : ∀ token ∈ tokens, 0 ∉ token)
    {m m' : IcmpMonitor} (h : tokens.foldlM (fun m addr => m.addManager addr) m = some m')
    (key : Str) :
    m'.managers.lookup key =
      if key ∈ tokens then hostStart (tokenize key [colon]) else m.managers.lookup key := by
  induction tokens generalizing m with
  | nil =>
    cases h
    rfl
  | cons token tokens ih =>
    rw [List.foldlM_cons, Option.bind_eq_bind, Option.bind_eq_some_iff] at h
    obtain ⟨m₁, hm₁, hrest⟩ := h
    have hfirst := lookup_addManager (hzero token List.mem_cons_self) hm₁ key
    rw [ih (fun t ht => hzero t (List.mem_cons_of_mem _ ht)) hrest, hfirst]
    by_cases hkey : key = token
    · simp [hkey]
    · simp [hkey]

/-- After `start` as root a specification in its argument stands in the map as it says by position
    if and only if all of its fields are occupied. -/
theorem start_by_position {m m' : IcmpMonitor} {pszAddrs : Str} (h : m.start 0 pszAddrs = some m')
    (spec : HostSpec) (hspec : spec.text ∈ tokenize pszAddrs [space]) :
    m'.managers.lookup spec.text = some spec.byPosition ↔ ∀ field ∈ spec.fields, field ≠ [] := by
  obtain ⟨hne, hzero, -⟩ := mem_tokenize hspec
  have hlookup := lookup_addManagers (fun token htoken => (mem_tokenize htoken).2.1) h spec.text
  rw [hlookup, if_pos hspec, spec.tokenize_text hzero, spec.hostStart_occupied_iff hne]

/-- The loop reads behind the tokens of a specification if there are none. -/
theorem addManagers_isSome_iff (tokens : List Str) (m : IcmpMonitor) :
    (tokens.foldlM (fun (m : IcmpMonitor) addr => m.addManager addr) m).isSome ↔
      ∀ token ∈ tokens, tokenize token [colon] ≠ [] := by
  induction tokens generalizing m with
  | nil => simp
  | cons token tokens ih =>
    have hfirst := isSome_hostStart (tokenize token [colon])
    rw [List.foldlM_cons, List.forall_mem_cons, ← hfirst, addManager]
    cases hostStart (tokenize token [colon]) with
    | none => simp
    | some args => simpa using ih _

/-- `start` as root stays within the tokens if and only if no specification in its argument has
    nothing but colons. -/
theorem start_isSome_iff (m : IcmpMonitor) (pszAddrs : Str) :
    (m.start 0 pszAddrs).isSome ↔
      ∀ token ∈ tokenize pszAddrs [space], ∃ c ∈ token, c ≠ colon := by
  have hstart : (m.start 0 pszAddrs).isSome ↔
      ∀ token ∈ tokenize pszAddrs [space], tokenize token [colon] ≠ [] :=
    addManagers_isSome_iff _ m
  rw [hstart]
  refine forall₂_congr fun token htoken => ?_
  rw [Ne, tokenize, tokens_eq, Bytes.cString_eq_self (mem_tokenize htoken).2.1,
    occupied_eq_nil_iff]
  simp

end IcmpMonitor

end Pdk.Net
