import EventServer.Json.Document
import EventServer.Lib.Graph

/-!
# Nesting

The encoder looks at every value that is stored in a table. Each of them is one level
deeper, so that what it writes is not nested deeper than `encode_max_depth`, and no table
contains itself.
-/
namespace EventServer.Json

open EventServer.Lib.CString EventServer.Lib.Decimal EventServer.Lib.Graph Relation

variable {ν : Type} {env : EncodeEnv ν}

/-- The value `w` is stored in the table `v`. -/
def Stores (env : EncodeEnv ν) (v w : Value ν) : Prop :=
  ∃ t k, v = .table t ∧ (k, w) ∈ env.heap t

/-- Whole numbers from 1 on, and no two pairs of a table with one key. -/
structure Proper (env : EncodeEnv ν) : Prop where
  pos : ∀ x n, env.whole x → env.toInt x = some n → 0 < n
  distinct : ∀ t, (env.heap t).Pairwise fun p q => ∀ i, ¬(env.isIndex i p.1 ∧ env.isIndex i q.1)

theorem arrayLengthLoop_max {pairs : Table ν} {max items m n : Nat}
    (h : arrayLengthLoop env pairs max items = .ok (some (m, n))) :
    max ≤ m ∧ ∀ pair ∈ pairs, ∃ i ≤ m, env.isIndex i pair.1 := by
  induction pairs generalizing max items with
  | nil =>
    rw [arrayLengthLoop] at h
    cases h
    exact ⟨Nat.le_refl _, List.forall_mem_nil _⟩
  | cons pair pairs ih =>
    obtain ⟨k, v⟩ := pair
    cases k with
    | number x =>
      rw [arrayLengthLoop] at h
      split at h
      · rename_i hwhole
        split at h
        · cases h
        · rename_i i hi
          obtain ⟨hle, hall⟩ := ih h
          have him : i ≤ m := by
            split at hle
            · exact hle
            · omega
          refine ⟨?_, List.forall_mem_cons.mpr ⟨⟨i, him, ?_⟩, hall⟩⟩
          · split at hle
            · omega
            · exact hle
          · simp [EncodeEnv.isIndex, hwhole, hi]
      · cases h
    | _ => cases h

/-- Where there are elements, every pair of the table is one of them. -/
theorem arrayLength_pos {pairs : Table ν} {len : Int} (h : arrayLength env pairs = .ok len)
    (hpos : 0 < len) : ∀ pair ∈ pairs, ∃ i ≤ len.toNat, env.isIndex i pair.1 := by
  obtain ⟨r, hloop, h⟩ := bind_eq_ok h
  cases r with
  | none =>
    cases h
    exact absurd hpos (by decide)
  | some r =>
    obtain ⟨m, n⟩ := r
    have hlen : len = m := by
      dsimp only at h
      split at h
      · cases h
      · split at h
        · split at h
          · cases h
            exact absurd hpos (by decide)
          · cases h
        · cases h
          rfl
    rw [hlen, Int.toNat_natCast]
    exact (arrayLengthLoop_max hloop).2

theorem rawgeti_of_mem {pairs : Table ν} {k w : Value ν} {i : Nat}
    (hdistinct : pairs.Pairwise fun p q => ∀ i, ¬(env.isIndex i p.1 ∧ env.isIndex i q.1))
    (hmem : (k, w) ∈ pairs) (hi : env.isIndex i k) : rawgeti env pairs i = w := by
  induction pairs with
  | nil => cases hmem
  | cons pair pairs ih =>
    obtain ⟨hfirst, hdistinct⟩ := List.pairwise_cons.mp hdistinct
    rcases List.mem_cons.mp hmem with rfl | hmem
    · have hfind : ((k, w) :: pairs).find? (fun pair => env.isIndex i pair.1) = some (k, w) :=
        List.find?_cons_of_pos hi
      rw [rawgeti, hfind]
      rfl
    · have hne : ¬env.isIndex i pair.1 := fun h => hfirst _ hmem i ⟨h, hi⟩
      have hfind : (pair :: pairs).find? (fun pair => env.isIndex i pair.1) =
          pairs.find? fun pair => env.isIndex i pair.1 := List.find?_cons_of_neg hne
      rw [rawgeti, hfind]
      exact ih hdistinct hmem

theorem elementsOf_ok {value : Value ν → Except EncodeError Doc} {pairs : Table ν} {n i : Nat}
    {ds : List Doc} (h : elementsOf env value pairs n i = .ok ds) {j : Nat} (hj : i ≤ j)
    (hjn : j < i + n) : ∃ d, value (rawgeti env pairs j) = .ok d := by
  induction n generalizing i ds with
  | zero => omega
  | succ n ih =>
    obtain ⟨d, hd, h⟩ := bind_eq_ok h
    obtain ⟨ds', hds, -⟩ := bind_eq_ok h
    by_cases hij : j = i
    · exact ⟨d, hij ▸ hd⟩
    · exact ih hds (by omega) (by omega)

theorem membersOf_ok {value : Value ν → Except EncodeError Doc} {pairs : Table ν}
    {ms : List (List Stream.Byte × Doc)} (h : membersOf env value pairs = .ok ms) :
    ∀ pair ∈ pairs, ∃ d, value pair.2 = .ok d := by
  induction pairs generalizing ms with
  | nil => exact List.forall_mem_nil _
  | cons pair pairs ih =>
    obtain ⟨k, v⟩ := pair
    obtain ⟨key, -, h⟩ := bind_eq_ok h
    obtain ⟨d, hd, h⟩ := bind_eq_ok h
    obtain ⟨ms', hms, -⟩ := bind_eq_ok h
    exact List.forall_mem_cons.mpr ⟨⟨d, hd⟩, ih hms⟩

/-- The value has a document within so many levels. -/
def Documented (env : EncodeEnv ν) (room : Nat) (v : Value ν) : Prop :=
  ∃ top d, docOf env room top v = .ok d

/-- What a table stores is looked at one level deeper. -/
theorem documented_stored (hproper : Proper env) (room : Nat) (v w : Value ν)
    (hv : Documented env room v) (hw : Stores env v w) :
    ∃ m, room = m + 1 ∧ Documented env m w := by
  obtain ⟨top, d, hd⟩ := hv
  obtain ⟨t, k, rfl, hmem⟩ := hw
  cases room with
  | zero => cases hd
  | succ room =>
    refine ⟨room, rfl, ?_⟩
    rw [docOf] at hd
    split at hd
    · obtain ⟨len, hlen, hd⟩ := bind_eq_ok hd
      split at hd
      · rename_i hpos
        obtain ⟨ds, hds, -⟩ := bind_eq_ok hd
        obtain ⟨i, hile, hi⟩ := arrayLength_pos hlen hpos _ hmem
        have hipos : 0 < i := by
          cases k with
          | number x =>
            simp only [EncodeEnv.isIndex, Bool.and_eq_true, decide_eq_true_eq] at hi
            exact hproper.pos x i hi.1 hi.2
          | _ => cases hi
        obtain ⟨d', hd'⟩ := elementsOf_ok hds (j := i) (by omega) (by omega)
        rw [rawgeti_of_mem (hproper.distinct t) hmem hi] at hd'
        exact ⟨top + 1, d', hd'⟩
      · obtain ⟨ms, hms, -⟩ := bind_eq_ok hd
        obtain ⟨d', hd'⟩ := membersOf_ok hms _ hmem
        exact ⟨top + 2, d', hd'⟩
    · cases hd

theorem documented_of_encode (hnum : PlainNumbers env) {v : Value ν} {text : List Stream.Byte}
    (h : encode env v = .ok text) : Documented env env.cfg.maxDepth v := by
  rw [encode, appendData_eq hnum] at h
  cases hd : docOf env env.cfg.maxDepth 1 v with
  | error e =>
    rw [hd] at h
    cases h
  | ok d => exact ⟨1, d, hd⟩

/-- What is serialised has no path of stored values longer than `encode_max_depth`, and nothing
in it contains itself. -/
theorem encode_nesting (hproper : Proper env) (hnum : PlainNumbers env) {v : Value ν}
    {text : List Stream.Byte} (h : encode env v = .ok text) :
    (∀ path, List.IsChain (Stores env) (v :: path) → path.length ≤ env.cfg.maxDepth) ∧
      ∀ w, ReflTransGen (Stores env) v w → ¬TransGen (Stores env) w w := by
  have hv := documented_of_encode hnum h
  refine ⟨fun path hpath => length_le_of_rank (documented_stored hproper) hv hpath, ?_⟩
  intro w hw
  obtain ⟨n, hn⟩ := exists_rank_of_reaches (documented_stored hproper) hv hw
  exact not_cycle_of_rank (documented_stored hproper) hn

/-- Natural numbers in decimal digits, with the default settings. -/
def EncodeEnv.decimal (heap : Nat → Table Nat) : EncodeEnv Nat where
  cfg := .default
  heap := heap
  isinf _ := false
  isnan _ := false
  gfmt := printNat
  whole x := 0 < x
  toInt x := if x < 2 ^ 31 then some x else none
  checkstack top slots := top + slots ≤ 8000

theorem plainNumbers_decimal (heap : Nat → Table Nat) : PlainNumbers (.decimal heap) := by
  have hdigit : ∀ c : Stream.Byte, isDigit c → char2escape c = none := by decide +kernel
  exact fun x c hc => hdigit c (isDigit_of_mem_printNat hc)

/-- `[{}]`. -/
def twoTables : Nat → Table Nat
  | 0 => [(.number 1, .table 1)]
  | _ => []

theorem proper_twoTables : Proper (.decimal twoTables) where
  pos x n hx hn := by
    have hpos : 0 < x := of_decide_eq_true hx
    simp only [EncodeEnv.decimal] at hn
    split at hn
    · cases hn
      exact hpos
    · cases hn
  distinct t := by
    change (twoTables t).Pairwise _
    unfold twoTables
    split
    · exact List.pairwise_singleton _ _
    · exact .nil

/-- The outer table stores the inner one, and neither is found below itself. -/
theorem encode_nesting_two :
    Stores (.decimal twoTables) (.table 0) (.table 1) ∧
      ¬TransGen (Stores (.decimal twoTables)) (.table 1) (.table 1) := by
  have hstores : Stores (.decimal twoTables) (.table 0) (.table 1) :=
    ⟨0, .number 1, rfl, List.mem_singleton.mpr rfl⟩
  refine ⟨hstores, ?_⟩
  exact (@encode_nesting Nat (.decimal twoTables) proper_twoTables
    (plainNumbers_decimal twoTables) (.table 0) (lit ['[', '{', '}', ']']) (by decide +kernel)).2 _
    (.single hstores)

end EventServer.Json
