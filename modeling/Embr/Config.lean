import Embr.Lib.Trace
import Embr.Shell

/-!
# The tracker that is trusted

`util/config_tracker.hpp` and `cli/trust_cli.cpp`: a file under `$HOME` keeps one
URL, which counts where neither the flag nor `EMBR_TRACKER` names another one.
-/

open Octets Interact Text
namespace Embr.Cli

def slash : UInt8 := 47
def newline : UInt8 := 10

def appendPath (path : Path) (name : String) : Path :=
  if path.getLast? = some slash then path ++ ascii name else path ++ [slash] ++ ascii name

def parentPath (path : Path) : Path :=
  ((path.reverse.dropWhile (· ≠ slash)).drop 1).reverse

def getConfigPath : Prog Shell Path := do
  match ← shell (.getenv "HOME") with
  | none => pure []
  | some home =>
    if home = [] then pure []
    else pure (appendPath (appendPath (appendPath home ".config") "embr") "tracker")

def existsFile (path : Path) : Prog Shell Bool := do
  let r : Except Exc Bool ← shell (.exists path)
  System.lift r

def getline (content : Bytes) : Bytes := content.takeWhile (· ≠ newline)

def readTrackerUrl : Prog Shell Bytes := do
  let configPath ← getConfigPath
  if configPath = [] then pure []
  else do
    let there ← existsFile configPath
    if there then do
      let content : Bytes ← shell (.read configPath)
      pure (getline content)
    else pure []

def writeTrackerUrl (url : Bytes) : Prog Shell Unit := do
  let configPath ← getConfigPath
  if configPath = [] then .raise (.runtimeError "write_tracker_url: HOME not set")
  else do
    let r : Except Exc Unit ← shell (.createDirectories (parentPath configPath))
    System.lift r
    shell (.overwrite configPath (url ++ [newline]))

def resolveTrackerUrl (flagValue : Bytes) : Prog Shell Bytes := do
  if flagValue ≠ [] then pure flagValue
  else do
    match ← shell (.getenv "EMBR_TRACKER") with
    | some env => if env ≠ [] then pure env else readTrackerUrl
    | none => readTrackerUrl

def clearTracker : Prog Shell Unit := do
  let configPath ← getConfigPath
  let there ← existsFile configPath
  if there then do
    let r : Except Exc Unit ← shell (.remove configPath)
    System.lift r
    cout "[trust] tracker config cleared"
  else cout "[trust] no tracker configured"

def listTracker : Prog Shell Unit := do
  let url ← readTrackerUrl
  if url = [] then cout "[trust] no tracker configured"
  else cout ("[trust] trusted tracker: " ++ text url)

def trustUsage : String :=
  "Usage: embr trust <url>   - save tracker URL\n" ++
  "       embr trust --list  - print current trusted trackers\n" ++
  "       embr trust --clear - remove saved trackers\n" ++
  "\n" ++
  "Resolution order:\n" ++
  "  1. --tracker flag\n" ++
  "  2. EMBR_TRACKER env var\n" ++
  "  3. ~/.config/embr/tracker (set by embr trust)\n" ++
  "  4. empty — direct IP mode only"

def runTrustCli : List Bytes → Prog Shell ℕ
  | [] => do
    cerr trustUsage
    pure 1
  | arg :: _ =>
    if arg = ascii "--list" then do
      listTracker
      pure 0
    else if arg = ascii "--clear" then do
      clearTracker
      pure 0
    else if arg = ascii "--help" then do
      cerr trustUsage
      pure 0
    else do
      writeTrackerUrl arg
      cout ("[trust] saved tracker: " ++ text arg)
      pure 0

/-- Commands of one user, one after another. -/
def runTrusts : List (List Bytes) → Prog Shell Unit
  | [] => pure ()
  | args :: rest => do
    let _ : ℕ ← runTrustCli args
    runTrusts rest

/-- Where the URL is kept, and nowhere without a `HOME`. -/
def configPath (vars : String → Option Bytes) : Path :=
  match vars "HOME" with
  | none => []
  | some home =>
    if home = [] then []
    else appendPath (appendPath (appendPath home ".config") "embr") "tracker"

/-- The URL that a file stands for. -/
def savedUrl (content : Option Bytes) : Bytes := getline (content.getD [])

/-- What a command makes of the URL that was remembered before. -/
def remember (url : Bytes) : List Bytes → Bytes
  | [] => url
  | arg :: _ =>
    if arg = ascii "--list" then url
    else if arg = ascii "--clear" then []
    else if arg = ascii "--help" then url
    else getline arg

/-- The flag, else the environment, else what was remembered. -/
def chosen (vars : String → Option Bytes) (flagValue saved : Bytes) : Bytes :=
  if flagValue ≠ [] then flagValue
  else if (vars "EMBR_TRACKER").getD [] ≠ [] then (vars "EMBR_TRACKER").getD []
  else saved

theorem getline_append_newline (url : Bytes) : getline (url ++ [newline]) = getline url := by
  rw [getline, takeWhile_append_cons]
  rfl

section specs
variable {vars : String → Option Bytes} {s : Process}

abbrev Smooth (vars : String → Option Bytes) {α : Type} (p : Prog Shell α)
    (Q : α → Process → Prop) (s : Process) : Prop :=
  Sat (world vars False) (fun _ _ => True) (fun _ _ => False) p Q s

theorem getConfigPath_sat : Smooth vars getConfigPath (fun p t => p = configPath vars ∧ t = s) s := by
  refine sat_ask_bind.mpr ⟨trivial, fun r t ht => ?_⟩
  obtain ⟨rfl, rfl⟩ := ht
  rw [configPath]
  cases vars "HOME" with
  | none => exact sat_pure.mpr ⟨trivial, rfl, rfl⟩
  | some home =>
    dsimp only
    split_ifs with hhome
    · exact sat_pure.mpr ⟨trivial, rfl, rfl⟩
    · exact sat_pure.mpr ⟨trivial, rfl, rfl⟩

theorem existsFile_sat {path : Path} (hpath : path ≠ []) :
    Smooth vars (existsFile path) (fun b t => b = (s.files path).isSome ∧ t = s) s := by
  refine sat_ask_bind.mpr ⟨trivial, fun r t ht => ?_⟩
  rcases ht with ⟨rfl, rfl⟩ | ⟨hno, -⟩
  · exact sat_pure.mpr ⟨trivial, by simp [hpath], rfl⟩
  · exact hno.elim

theorem readTrackerUrl_sat (hpath : configPath vars ≠ []) : Smooth vars readTrackerUrl
    (fun url t => url = savedUrl (s.files (configPath vars)) ∧ t = s) s := by
  refine Sat.andThen getConfigPath_sat fun p t ht => ?_
  obtain ⟨rfl, rfl⟩ := ht
  rw [if_neg hpath]
  refine Sat.andThen (existsFile_sat hpath) fun b u hu => ?_
  obtain ⟨rfl, rfl⟩ := hu
  split_ifs with hthere
  · refine sat_ask_bind.mpr ⟨trivial, fun r v hv => ?_⟩
    obtain ⟨rfl | ⟨hno, -⟩, rfl⟩ := hv
    · exact sat_pure.mpr ⟨trivial, rfl, rfl⟩
    · exact hno.elim
  · rw [Bool.not_eq_true, Option.isSome_eq_false_iff, Option.isNone_iff_eq_none] at hthere
    rw [hthere]
    exact sat_pure.mpr ⟨trivial, rfl, rfl⟩

theorem resolveTrackerUrl_sat (hpath : configPath vars ≠ []) (flagValue : Bytes) :
    Smooth vars (resolveTrackerUrl flagValue)
      (fun url t => url = chosen vars flagValue (savedUrl (s.files (configPath vars))) ∧ t = s) s := by
  rw [resolveTrackerUrl, chosen]
  split_ifs with hflag henv
  · exact sat_pure.mpr ⟨trivial, rfl, rfl⟩
  · refine sat_ask_bind.mpr ⟨trivial, fun r t ht => ?_⟩
    obtain ⟨rfl, rfl⟩ := ht
    cases hvar : vars "EMBR_TRACKER" with
    | none => exact (henv (by rw [hvar]; rfl)).elim
    | some env =>
      rw [hvar, Option.getD_some] at henv
      dsimp only
      rw [if_pos henv]
      exact sat_pure.mpr ⟨trivial, rfl, rfl⟩
  · refine sat_ask_bind.mpr ⟨trivial, fun r t ht => ?_⟩
    obtain ⟨rfl, rfl⟩ := ht
    cases hvar : vars "EMBR_TRACKER" with
    | none => exact readTrackerUrl_sat hpath
    | some env =>
      rw [hvar, Option.getD_some] at henv
      dsimp only
      rw [if_neg henv]
      exact readTrackerUrl_sat hpath

def Saves (path : Path) (url : Bytes) (s t : Process) : Prop :=
  savedUrl (t.files path) = url ∧ ∀ path' ≠ path, t.files path' = s.files path'

theorem saves_update {path : Path} {url : Bytes} {content : Option Bytes} {t : Process}
    (hurl : savedUrl content = url) (hfiles : t.files = Function.update s.files path content) :
    Saves path url s t := by
  constructor
  · rw [hfiles, Function.update_self, hurl]
  · intro path' hne
    rw [hfiles, Function.update_of_ne hne]

theorem saves_same {path : Path} {t : Process} (hfiles : t.files = s.files) :
    Saves path (savedUrl (s.files path)) s t := by
  constructor
  · rw [hfiles]
  · intro path' _
    rw [hfiles]

theorem Saves.trans {path : Path} {url url' : Bytes} {t u : Process} (h : Saves path url s t)
    (h' : Saves path url' t u) : Saves path url' s u := by
  refine ⟨h'.1, fun path' hne => ?_⟩
  rw [h'.2 path' hne, h.2 path' hne]

theorem writeTrackerUrl_sat (hpath : configPath vars ≠ []) (url : Bytes) :
    Smooth vars (writeTrackerUrl url) (fun _ t => Saves (configPath vars) (getline url) s t) s := by
  refine Sat.andThen getConfigPath_sat fun p t ht => ?_
  obtain ⟨rfl, rfl⟩ := ht
  rw [if_neg hpath]
  refine sat_ask_bind.mpr ⟨trivial, fun r u hu => ?_⟩
  obtain ⟨rfl, rfl | ⟨hno, -⟩⟩ := hu
  · refine sat_ask.mpr ⟨trivial, fun _ v hv => ⟨trivial, ?_⟩⟩
    rcases hv with rfl | ⟨hno, -⟩
    · exact saves_update (by rw [savedUrl, Option.getD_some, getline_append_newline]) rfl
    · exact hno.elim
  · exact hno.elim

theorem clearTracker_sat (hpath : configPath vars ≠ []) :
    Smooth vars clearTracker (fun _ t => Saves (configPath vars) [] s t) s := by
  refine Sat.andThen getConfigPath_sat fun p t ht => ?_
  obtain ⟨rfl, rfl⟩ := ht
  refine Sat.andThen (existsFile_sat hpath) fun b u hu => ?_
  obtain ⟨rfl, rfl⟩ := hu
  split_ifs with hthere
  · refine sat_ask_bind.mpr ⟨trivial, fun r v hv => ?_⟩
    rcases hv with ⟨rfl, rfl⟩ | ⟨hno, -⟩
    · exact sat_modify.mpr ⟨trivial, trivial, saves_update (show savedUrl none = [] from rfl) rfl⟩
    · exact hno.elim
  · rw [Bool.not_eq_true, Option.isSome_eq_false_iff, Option.isNone_iff_eq_none] at hthere
    refine sat_modify.mpr ⟨trivial, trivial, ?_, fun _ _ => rfl⟩
    change savedUrl (u.files (configPath vars)) = []
    rw [hthere]
    rfl

theorem cout_sat (line : String) :
    Smooth vars (cout line) (fun _ t => t.files = s.files) s :=
  sat_modify.mpr ⟨trivial, trivial, rfl⟩

theorem listTracker_sat (hpath : configPath vars ≠ []) :
    Smooth vars listTracker (fun _ t => t.files = s.files) s := by
  refine Sat.andThen (readTrackerUrl_sat hpath) fun url t ht => ?_
  obtain ⟨-, rfl⟩ := ht
  split_ifs with hurl
  · exact cout_sat _
  · exact cout_sat _

theorem runTrustCli_sat (hpath : configPath vars ≠ []) (args : List Bytes) :
    Smooth vars (runTrustCli args)
      (fun _ t => Saves (configPath vars) (remember (savedUrl (s.files (configPath vars))) args) s t)
      s := by
  have hword : ∀ (e : Event) (n : ℕ), Smooth vars (say e >>= fun _ => pure n)
      (fun _ t => Saves (configPath vars) (savedUrl (s.files (configPath vars))) s t) s := by
    intro e n
    exact sat_modify_bind.mpr ⟨trivial, sat_pure.mpr ⟨trivial, saves_same rfl⟩⟩
  cases args with
  | nil => exact hword _ _
  | cons arg rest =>
    rw [runTrustCli, remember]
    split_ifs
    · refine Sat.andThen (listTracker_sat hpath) fun _ t ht => ?_
      exact sat_pure.mpr ⟨trivial, saves_same ht⟩
    · refine Sat.andThen (clearTracker_sat hpath) fun _ t ht => ?_
      exact sat_pure.mpr ⟨trivial, ht⟩
    · exact hword _ _
    · refine Sat.andThen (writeTrackerUrl_sat hpath arg) fun _ t ht => ?_
      exact sat_modify_bind.mpr ⟨trivial, sat_pure.mpr ⟨trivial, ht⟩⟩

theorem runTrusts_sat (hpath : configPath vars ≠ []) (cs : List (List Bytes)) (s : Process) :
    Smooth vars (runTrusts cs)
      (fun _ t => Saves (configPath vars) (cs.foldl remember (savedUrl (s.files (configPath vars)))) s t)
      s := by
  induction cs generalizing s with
  | nil => exact sat_pure.mpr ⟨trivial, saves_same rfl⟩
  | cons args rest ih =>
    refine Sat.andThen (runTrustCli_sat hpath args) fun _ t ht => ?_
    refine (ih t).weaken fun _ u hu => ?_
    rw [ht.1] at hu
    exact ht.trans hu

end specs

/-- Whatever `embr trust` was given before, the next transfer is told the URL that the
commands leave remembered, unless the flag or the environment names one. -/
theorem trust_resolved {vars : String → Option Bytes} (hpath : configPath vars ≠ [])
    (cs : List (List Bytes)) (flagValue : Bytes) (s t : Process)
    {p : Prog Shell Bytes}
    (hrun : Reaches (world vars False)
      (runTrusts cs >>= fun _ => resolveTrackerUrl flagValue, s) (p, t)) :
    (∀ e, p ≠ .raise e) ∧
    ∀ url, p = .ret url →
      url = chosen vars flagValue (cs.foldl remember (savedUrl (s.files (configPath vars)))) ∧
      ∀ path ≠ configPath vars, t.files path = s.files path := by
  have hsat : Smooth vars (runTrusts cs >>= fun _ => resolveTrackerUrl flagValue) (fun url u =>
      url = chosen vars flagValue (cs.foldl remember (savedUrl (s.files (configPath vars)))) ∧
      ∀ path ≠ configPath vars, u.files path = s.files path) s := by
    refine Sat.andThen (runTrusts_sat hpath cs s) fun _ u hu => ?_
    refine (resolveTrackerUrl_sat hpath flagValue).weaken fun url v hv => ?_
    obtain ⟨rfl, rfl⟩ := hv
    exact ⟨by rw [hu.1], hu.2⟩
  constructor
  · rintro e rfl
    exact hsat.raised hrun
  · rintro url rfl
    exact hsat.returned hrun

/-- A user with a `HOME` and no saved URL. -/
def homeVars : String → Option Bytes := fun name => if name = "HOME" then some (ascii "/h") else none

theorem saved_letter : ∃ l, ∃ t : Process, Trace (world homeVars False)
    (runTrusts [[ascii "u"]] >>= fun _ => resolveTrackerUrl []) blank l (.ret (ascii "u")) t := by
  let u : Process := { blank with
    files := Function.update blank.files (configPath homeVars) (some (ascii "u" ++ [newline])) }
  let v : Process := u.note (.out ("[trust] saved tracker: " ++ text (ascii "u")))
  have hhome : ∀ s, world homeVars False (.getenv "HOME") s (some (ascii "/h")) s :=
    fun _ => ⟨rfl, rfl⟩
  have hnone : world homeVars False (.getenv "EMBR_TRACKER") v none v := ⟨rfl, rfl⟩
  have hdirs : world homeVars False (.createDirectories (parentPath (configPath homeVars))) blank
      (.ok ()) blank := ⟨rfl, .inl rfl⟩
  have hsave : world homeVars False (.overwrite (configPath homeVars) (ascii "u" ++ [newline])) blank
      () u := .inl rfl
  have hthere : world homeVars False (.exists (configPath homeVars)) v (.ok true) v :=
    .inl ⟨rfl, rfl⟩
  have hread : world homeVars False (.read (configPath homeVars)) v (ascii "u" ++ [newline]) v :=
    ⟨.inl rfl, rfl⟩
  exact ⟨_, v, .call (hhome blank) <| .call hdirs <| .call hsave <| .act <| .call hnone <|
    .call (hhome v) <| .call hthere <| .call hread .done⟩

theorem trust_resolved_letter : ∃ t : Process, ascii "u" = chosen homeVars []
      ([[ascii "u"]].foldl remember (savedUrl (blank.files (configPath homeVars)))) ∧
    ∀ path ≠ configPath homeVars, t.files path = blank.files path := by
  obtain ⟨l, t, hrun⟩ := saved_letter
  exact ⟨t, (trust_resolved (by decide) [[ascii "u"]] [] blank t hrun.reaches).2 _ rfl⟩

end Embr.Cli
