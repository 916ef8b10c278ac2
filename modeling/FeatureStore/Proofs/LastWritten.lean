-- SUMMARY: What is read of a geometry cache is computed from the value that was written last.
import FeatureStore.Proofs.Building

/-!
# The value written last

Whoever uses a geometry cache need not know what it holds. A value is written in one of the two
forms, or in none, and either form can be asked for at any time. The form in which the value was
written is given back as it is, byte for byte, and the other one is computed from it, however
often and in whatever order they are asked for. Bytes that are no geometry stay what they are:
asking for their parsed form fails each time, and changes nothing.
-/

namespace FeatureStore

namespace GeometryCache

/-! ## Values -/

/-- A value as it is written into a cache: there is none, or it is in one of the forms. -/
inductive Written
  | nothing
  | binary (bytes : Option (List UInt8))
  | parsed (g : Option Geometry)

namespace Written

def cache : Written → GeometryCache
  | .nothing => .neither
  | .binary bytes => .ofBinary bytes
  | .parsed g => .ofParsed g

/-- The parsed form, computed from the value. -/
def parsedForm : Written → Except CodecError (Option Geometry)
  | .nothing | .binary none => .ok none
  | .binary (some bytes) =>
    match Geometry.decode? bytes with
    | some g => .ok (some g)
    | none => .error .unreadableGeometry
  | .parsed g => .ok g

/-- The binary form, computed from the value. -/
def binaryForm : Written → Option (List UInt8)
  | .nothing => none
  | .binary bytes => bytes
  | .parsed g => g.map Geometry.encode

/-- The value that a use of a cache writes. -/
def ofAction? : Action → Option Written
  | .readParsed | .readBinary => none
  | .setParsed g => some (.parsed g)
  | .setBinary bytes => some (.binary bytes)

/-- The value that is written last, if any is written after the first one. -/
def lastOf (first : Written) (actions : List Action) : Written :=
  (actions.filterMap ofAction?).getLastD first

theorem lastOf_cons (first : Written) (action : Action) (rest : List Action) :
    first.lastOf (action :: rest) = ((ofAction? action).getD first).lastOf rest := by
  rw [lastOf, List.filterMap_cons]
  cases ofAction? action with
  | none => rfl
  | some value => exact List.getLastD_cons

end Written

/-! ## What a cache holds -/

variable {value : Written} {cache : GeometryCache}

/-- The cache holds the value, alone or with the other form, which is computed from it. -/
inductive Holds (value : Written) : GeometryCache → Prop
  | alone : Holds value value.cache
  | both {bytes : List UInt8} {g : Geometry} (hbinary : value.binaryForm = some bytes)
      (hparsed : value.parsedForm = .ok (some g)) : Holds value (.both bytes g)

/-- Both forms are read as they are computed, and the cache goes on holding the value. -/
theorem Holds.read (h : Holds value cache) :
    (cache.readParsed.1 = value.parsedForm ∧ Holds value cache.readParsed.2) ∧
      cache.readBinary.1 = value.binaryForm ∧ Holds value cache.readBinary.2 := by
  cases h with
  | both hbinary hparsed =>
    exact ⟨⟨hparsed.symm, .both hbinary hparsed⟩, hbinary.symm, .both hbinary hparsed⟩
  | alone =>
    rcases value with - | (- | bytes) | (- | g)
    case nothing | binary.none | parsed.none => exact ⟨⟨rfl, .alone⟩, rfl, .alone⟩
    case parsed.some => exact ⟨⟨rfl, .alone⟩, rfl, .both rfl rfl⟩
    case binary.some =>
      refine ⟨?_, rfl, .alone⟩
      simp only [Written.cache, ofBinary, readParsed, withParsed, Written.parsedForm]
      cases hdecode : Geometry.decode? bytes with
      | none => exact ⟨rfl, .alone⟩
      | some g =>
        refine ⟨rfl, .both rfl ?_⟩
        simp only [Written.parsedForm, hdecode]

/-- A use of the cache leaves the value that it writes, or the one that was there. -/
theorem Holds.perform (h : Holds value cache) (action : Action) :
    Holds ((Written.ofAction? action).getD value) (cache.perform action).2 := by
  cases action with
  | readParsed => exact h.read.1.2
  | readBinary => exact h.read.2.2
  | setParsed g => exact @Holds.alone (.parsed g)
  | setBinary bytes => exact @Holds.alone (.binary bytes)

/-! ## Runs -/

def afterAll (cache : GeometryCache) (actions : List Action) : GeometryCache :=
  actions.foldl (fun cache action => (cache.perform action).2) cache

theorem Holds.afterAll (h : Holds value cache) (actions : List Action) :
    Holds (value.lastOf actions) (cache.afterAll actions) := by
  induction actions generalizing value cache with
  | nil => exact h
  | cons action rest ih =>
    rw [Written.lastOf_cons]
    exact ih (h.perform action)

theorem Built.afterAll (h : cache.Built) (actions : List Action) :
    (cache.afterAll actions).Built := by
  induction actions generalizing cache with
  | nil => exact h
  | cons action rest ih => exact ih (h.perform action)

theorem built_cache (value : Written) : value.cache.Built := by
  cases value with
  | nothing => exact .neither
  | binary bytes => exact .ofBinary bytes
  | parsed g => exact .ofParsed g

/-- A read that fails leaves the cache as it was, and fails because of the geometry. -/
theorem readParsed_of_error {e : CodecError} (h : cache.readParsed.1 = .error e) :
    e.kind = .geometry ∧ cache.readParsed.2 = cache := by
  cases cache with
  | neither | parsed | both => cases h
  | binary bytes =>
    simp only [readParsed, withParsed] at h ⊢
    cases hdecode : Geometry.decode? bytes with
    | some g =>
      rw [hdecode] at h
      cases h
    | none =>
      rw [hdecode] at h
      cases h
      exact ⟨rfl, rfl⟩

/-- However a cache has been used, each form is read as it is computed from the value that was
    written last. A failed read leaves the cache as it was, and where the cache holds both forms
    the binary one is decoded to the parsed one. -/
theorem reads_last_written (first : Written) (actions : List Action) :
    let cache := first.cache.afterAll actions
    let last := first.lastOf actions
    cache.readParsed.1 = last.parsedForm ∧ cache.readBinary.1 = last.binaryForm ∧
      (∀ e, cache.readParsed.1 = .error e → e.kind = .geometry ∧ cache.readParsed.2 = cache) ∧
      ∀ bytes g, cache = .both bytes g → g.Sized → Geometry.decode? bytes = some g := by
  intro cache last
  have hholds : Holds last cache := Holds.alone.afterAll actions
  have hagrees : cache.Agrees := ((built_cache first).afterAll actions).agrees
  refine ⟨hholds.read.1.1, hholds.read.2.1, fun e => readParsed_of_error, ?_⟩
  intro bytes g hboth hsized
  rw [hboth] at hagrees
  exact hagrees hsized

/-- A point that is written with a byte too many is parsed without that byte, and its binary form
    keeps it. -/
theorem reads_last_written_of_trailing_byte :
    let g : Geometry := .point ⟨⟨0⟩, ⟨0⟩⟩
    let bytes := g.encode ++ [7]
    let actions : List Action :=
      [.readBinary, .readParsed, .setBinary (some bytes), .readParsed, .readBinary]
    let cache := (Written.parsed none).cache.afterAll actions
    cache = .both bytes g ∧ g.Sized ∧ cache.readBinary.1 = some bytes ∧
      Geometry.decode? bytes = some g := by
  intro g bytes actions cache
  have hsized : g.Sized := trivial
  have hdecode : Geometry.decode? bytes = some g := Geometry.decode?_encode_append hsized [7]
  have hread : (ofBinary (some bytes)).readParsed.2 = .both bytes g := by
    simp only [ofBinary, readParsed, withParsed, hdecode]
  have hboth : cache = .both bytes g := congrArg (fun cache => cache.readBinary.2) hread
  have hreads := reads_last_written (.parsed none) actions
  exact ⟨hboth, hsized, hreads.2.1, hreads.2.2.2 bytes g hboth hsized⟩

end GeometryCache

end FeatureStore
