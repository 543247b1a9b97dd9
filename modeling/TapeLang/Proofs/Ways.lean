import TapeLang.FileSystem

/-!
Ways through a file system. A path leads through directories and symbolic links to the entry that it
names. A file that is written under some path lies at the end of the way of that path, where no
other way leads through, so the other ways stay as they are. What is found at their ends changes
only where both paths lead to one file. This takes a link: without links a path leads to a place
whose last name is its own.
-/
namespace TapeLang

namespace FileName

/-- A path of one piece. -/
structure Bare (name : String) : Prop where
  nonempty : name ≠ ""
  no_slash : '/' ∉ name.toList

end FileName

/-- The way of a path may end at the entry, but does not go through it. -/
def Entry.EndsWays (entry : Entry) : Prop := entry ≠ .directory ∧ ∀ target, entry ≠ .link target

namespace FileSystem

variable {fs fs' : FileSystem} {names names' place place' : List String} {entry : Entry}
  {links : Nat}

/-- The file systems differ at most in the file at this place. -/
structure ChangesOnly (fs fs' : FileSystem) (names : List String) : Prop where
  start : fs'.workingDirectory = fs.workingDirectory
  get? : ∀ names', fs.firstName names' ≠ fs.firstName names → fs'.get? names' = fs.get? names'

/-- Where a piece of a path leads from a directory, unless to a symbolic link. -/
inductive Leads (fs : FileSystem) (place : List String) : String → List String → Prop
  | stay {piece : String} (h : piece = "" ∨ piece = ".") : Leads fs place piece place
  | up : Leads fs place ".." place.dropLast
  | down {piece : String} {entry : Entry} (hne : ¬ (piece = "" ∨ piece = ".")) (hup : piece ≠ "..")
      (hlength : piece.utf8ByteSize ≤ 255) (hthere : fs.get? (place ++ [piece]) = some entry)
      (hlink : ∀ target, entry ≠ .link target) : Leads fs place piece (place ++ [piece])

/-- A piece of a path that is the name of a symbolic link. -/
structure LinkAt (fs : FileSystem) (place : List String) (piece target : String) : Prop where
  ne_stay : ¬ (piece = "" ∨ piece = ".")
  ne_up : piece ≠ ".."
  length : piece.utf8ByteSize ≤ 255
  link : fs.get? (place ++ [piece]) = some (.link target)

variable {jump jump' : List String → List String → Except FileError (List String)}

theorem walk_cons_eq_ok {piece : String} {rest : List String} :
    fs.walk jump place (piece :: rest) = .ok place' ↔
      fs.isDirectory place = true ∧
        ((∃ next, fs.Leads place piece next ∧ fs.walk jump next rest = .ok place') ∨
          ∃ target, fs.LinkAt place piece target ∧
            jump (startFrom place target) (pieces target ++ rest) = .ok place') := by
  constructor
  · intro h
    rw [walk] at h
    split at h
    · cases h
    · next hdirectory =>
      refine ⟨Bool.of_not_eq_false (by simpa using hdirectory), ?_⟩
      split at h
      · next hstay => exact .inl ⟨_, .stay hstay, h⟩
      · next hne =>
        split at h
        · next hup =>
          subst hup
          exact .inl ⟨_, .up, h⟩
        · next hup =>
          split at h
          · cases h
          · next hlength =>
            have hlength := Nat.le_of_not_lt hlength
            split at h
            · cases h
            · next target hlink => exact .inr ⟨target, ⟨hne, hup, hlength, hlink⟩, h⟩
            · next entry hlink hthere =>
              exact .inl ⟨_, .down hne hup hlength hthere hlink, h⟩
  · rintro ⟨hdirectory, ⟨next, hleads, hrest⟩ | ⟨target, hlink, hjump⟩⟩
    · rw [walk, if_neg (not_not_intro hdirectory)]
      cases hleads with
      | stay hstay => rw [if_pos hstay, hrest]
      | up => rw [if_neg (by decide), if_pos rfl, hrest]
      | down hne hup hlength hthere hlink =>
        rw [if_neg hne, if_neg hup, if_neg (Nat.not_lt_of_le hlength), hthere]
        split
        · next hnone => cases hnone
        · next target hsome => exact absurd (Option.some.inj hsome) (hlink target)
        · exact hrest
    · rw [walk, if_neg (not_not_intro hdirectory), if_neg hlink.ne_stay, if_neg hlink.ne_up,
        if_neg (Nat.not_lt_of_le hlink.length), hlink.link]
      exact hjump

theorem eq_of_walk {ps : List String} (hplace : ¬ fs.isDirectory place = true)
    (h : fs.walk jump place ps = .ok place') : ps = [] ∧ place' = place := by
  cases ps with
  | nil =>
    cases h
    exact ⟨rfl, rfl⟩
  | cons piece rest => exact absurd (walk_cons_eq_ok.mp h).1 hplace

theorem place_eq_ok {path : String} :
    fs.place path = .ok names ↔
      checkPath path = .ok () ∧ fs.follow maxLinks (fs.start path) (pieces path) = .ok names := by
  rw [FileSystem.place]
  cases checkPath path with
  | error e => simp [bind, Except.bind]
  | ok _ => simp [bind, Except.bind]

theorem find_eq_ok {path : String} :
    fs.find path = .ok entry ↔ ∃ names, fs.place path = .ok names ∧ fs.get? names = some entry := by
  rw [find]
  cases fs.place path with
  | error e => simp [bind, Except.bind]
  | ok names =>
    simp only [bind, Except.bind, Except.ok.injEq, exists_eq_left']
    cases fs.get? names <;> simp

/-- The path leads to the file that is opened when one is written under `output`. -/
def SameFile (fs : FileSystem) (path output : String) : Prop :=
  ∃ names names', fs.place path = .ok names ∧ fs.creationPlace output = .ok names' ∧
    fs.firstName names = fs.firstName names'

theorem makeAt_cases {ps : List String} (h : fs.makeAt jump links place ps = .ok names) :
    (names ≠ [] ∧ ∀ target, fs.get? names ≠ some (.link target)) ∨
      ∃ place ps, jump place ps = .ok names := by
  unfold makeAt at h
  dsimp only at h
  split at h
  · cases h
  · next last before _ =>
    cases hfollow : fs.follow links place before.reverse with
    | error e =>
      rw [hfollow] at h
      cases h
    | ok directory =>
      rw [hfollow] at h
      simp only [bind, Except.bind] at h
      split at h
      · cases h
      · split at h
        · cases h
        · split at h
          · cases h
          · split at h
            · exact .inr ⟨_, _, h⟩
            · next hlink =>
              cases h
              exact .inl ⟨List.append_ne_nil_of_right_ne_nil _ (List.cons_ne_nil _ _), hlink⟩

/-- A file is created under a name of its own, and not where a symbolic link is. -/
theorem make_eq_ok {ps : List String} (h : fs.make links place ps = .ok names) :
    names ≠ [] ∧ ∀ target, fs.get? names ≠ some (.link target) := by
  induction links generalizing place ps with
  | zero =>
    rcases makeAt_cases h with hmade | ⟨_, _, hjump⟩
    · exact hmade
    · cases hjump
  | succ links ih =>
    rcases makeAt_cases h with hmade | ⟨_, _, hjump⟩
    · exact hmade
    · exact ih hjump

theorem creationPlace_eq_ok {path : String} :
    fs.creationPlace path = .ok names ↔
      checkPath path = .ok () ∧ fs.make maxLinks (fs.start path) (pieces path) = .ok names := by
  rw [creationPlace]
  cases checkPath path with
  | error e => simp [bind, Except.bind]
  | ok _ => simp [bind, Except.bind]

/-- What is opened for writing ends the ways that lead to it. -/
theorem openForWriting_eq_ok {path : String} {old : Option Entry}
    (h : fs.openForWriting path = .ok (names, old)) :
    fs.creationPlace path = .ok names ∧ names ≠ [] ∧
      ∀ found, fs.get? names = some found → found.EndsWays := by
  unfold openForWriting at h
  cases hplace : fs.creationPlace path with
  | error e =>
    rw [hplace] at h
    cases h
  | ok place =>
    obtain ⟨-, hmake⟩ := creationPlace_eq_ok.mp hplace
    obtain ⟨hne, hlink⟩ := make_eq_ok hmake
    rw [hplace] at h
    simp only [bind, Except.bind] at h
    split at h
    · cases h
    · next hnot =>
      cases h
      refine ⟨rfl, hne, fun found hfound => ⟨?_, ?_⟩⟩
      · rintro rfl
        exact hnot hfound
      · rintro target rfl
        exact hlink target hfound

namespace ChangesOnly

variable (h : fs.ChangesOnly fs' names) (hnames : names ≠ [])
  (hends : ∀ found, fs.get? names = some found → found.EndsWays)
include h hnames hends

/-- What ways lead through is not what has changed. -/
theorem get?_through {found : Entry} (hfound : fs.get? names' = some found)
    (hthrough : ¬ found.EndsWays) : fs'.get? names' = some found := by
  by_cases hne : names' = []
  · rw [hne] at hfound ⊢
    exact hfound
  · rw [h.get? names', hfound]
    intro heq
    rw [FileSystem.get?, if_neg hne, heq] at hfound
    refine hthrough (hends found ?_)
    rw [FileSystem.get?, if_neg hnames, hfound]

theorem isDirectory (hplace : fs.isDirectory place = true) : fs'.isDirectory place = true := by
  have hget := of_decide_eq_true hplace
  exact decide_eq_true (h.get?_through hnames hends hget fun hend => hend.1 rfl)

theorem walk {ps : List String} (hother : fs.firstName place' ≠ fs.firstName names)
    (hjump : ∀ place ps, jump place ps = .ok place' → jump' place ps = .ok place')
    (hwalk : fs.walk jump place ps = .ok place') : fs'.walk jump' place ps = .ok place' := by
  induction ps generalizing place with
  | nil => exact hwalk
  | cons piece rest ih =>
    obtain ⟨hdirectory, hnext⟩ := walk_cons_eq_ok.mp hwalk
    refine walk_cons_eq_ok.mpr ⟨h.isDirectory hnames hends hdirectory, ?_⟩
    rcases hnext with ⟨next, hleads, hrest⟩ | ⟨target, hlink, hjumps⟩
    · refine .inl ⟨next, ?_, ih hrest⟩
      cases hleads with
      | stay hstay => exact .stay hstay
      | up => exact .up
      | @down _ entry hne hup hlength hthere hlink =>
        refine .down hne hup hlength (?_ : fs'.get? _ = some entry) hlink
        by_cases hthrough : fs.isDirectory (place ++ [piece]) = true
        · have hget := of_decide_eq_true hthrough
          rw [hthere] at hget
          cases hget
          exact of_decide_eq_true (h.isDirectory hnames hends hthrough)
        · obtain ⟨-, rfl⟩ := eq_of_walk hthrough hrest
          rw [h.get? _ hother, hthere]
    · refine .inr ⟨target, ⟨hlink.ne_stay, hlink.ne_up, hlink.length, ?_⟩, hjump _ _ hjumps⟩
      exact h.get?_through hnames hends hlink.link fun hend => hend.2 target rfl

theorem follow {ps : List String} (hother : fs.firstName place' ≠ fs.firstName names)
    (hfollow : fs.follow links place ps = .ok place') : fs'.follow links place ps = .ok place' := by
  induction links generalizing place ps with
  | zero => exact h.walk hnames hends hother (fun _ _ hjump => hjump) hfollow
  | succ links ih => exact h.walk hnames hends hother (fun _ _ hjump => ih hjump) hfollow

theorem find {path : String} {found : Entry} (hplace : fs.place path = .ok names')
    (hother : fs.firstName names' ≠ fs.firstName names) (hfound : fs.find path = .ok found) :
    fs'.find path = .ok found := by
  obtain ⟨hcheck, hfollow⟩ := place_eq_ok.mp hplace
  have hplace' : fs'.place path = .ok names' := by
    refine place_eq_ok.mpr ⟨hcheck, ?_⟩
    rw [FileSystem.start, h.start]
    exact h.follow hnames hends hother hfollow
  obtain ⟨place, hsame, hget⟩ := find_eq_ok.mp hfound
  obtain rfl : names' = place := Except.ok.inj (hplace.symm.trans hsame)
  exact find_eq_ok.mpr ⟨names', hplace', (h.get? names' hother).trans hget⟩

end ChangesOnly

/-- Nothing has changed but the file that is opened when one is written under `output`. -/
def Writes (fs : FileSystem) (output : String) (fs' : FileSystem) : Prop :=
  fs' = fs ∨
    ∃ names old, fs.openForWriting output = .ok (names, old) ∧ fs.ChangesOnly fs' names

/-- Writing under one path changes what is found under another only if both lead to one file. -/
theorem Writes.find {path output : String} {found : Entry} (h : fs.Writes output fs')
    (hother : ¬ fs.SameFile path output) (hfound : fs.find path = .ok found) :
    fs'.find path = .ok found := by
  rcases h with rfl | ⟨names, old, hopen, hchanges⟩
  · exact hfound
  · obtain ⟨hcreate, hne, hends⟩ := openForWriting_eq_ok hopen
    obtain ⟨names', hplace, -⟩ := find_eq_ok.mp hfound
    refine hchanges.find hne hends hplace (fun heq => ?_) hfound
    exact hother ⟨names', names, hplace, hcreate, heq⟩

/-! ### Without links -/

/-- There are no symbolic links and no second names. -/
structure LinkFree (fs : FileSystem) : Prop where
  no_link : ∀ e ∈ fs.entries, ∀ target, e.2 ≠ .link target
  no_second : fs.secondNames = []

namespace LinkFree

theorem firstName (h : fs.LinkFree) (names : List String) : fs.firstName names = names := by
  rw [FileSystem.firstName, h.no_second]
  rfl

end LinkFree

end FileSystem

end TapeLang
