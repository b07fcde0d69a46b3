import Mathlib
import KirbLaSnoop.Config
import KirbLaSnoop.Lib.Table
import KirbLaSnoop.Log.State
import KirbLaSnoop.Profile.Load

/-!
# From the command line to the listeners

Listeners come from the config file, the command line, or both. Each profile
that one of them names is found and compiled once, under its name, and shared;
that they share it does not show.
-/

namespace KirbLaSnoop

/-- The arguments that decide what is listened to and what is kept. -/
structure Cli where
  specs : List String := []
  config : Option String := none
  profile : Option String := none
  profileDir : Option String := none
  noRaw : Bool := false
  noJsonl : Bool := false
  noFiles : Bool := false
  jsonlMaxData : ℕ := 256
  streamHead : UInt64 := 0
  streamTail : UInt64 := 0
  ring : Option UInt64 := none
  maxRunBytes : UInt64 := (1 : UInt64) <<< 30
  upstream : Option String := none
  iface : Option String := none
  udpIdle : ℕ := 60
  udpMaxPeers : ℕ := 4096

/-- What is asked of the file system and the environment. The files are read
and parsed; a profile comes with the loader of its directory. -/
structure System where
  isDir : String → Bool
  isFile : String → Bool
  env : String → Option String
  config : String → Except String (List Config.Listener)
  profile : String → Except String (Loader × Profile)

inductive StartError where
  | config (e : String)
  | spec (e : Config.SpecError)
  | nothing
  | notFound (spec named : String)
  | profile (e : String)
  | load (fault : LoadFault)
  deriving DecidableEq

variable (sys : System) (cli : Cli)

/-! ## Where profiles are -/

def profileDirs : List String :=
  ["profiles"] ++
    ((sys.env "XDG_DATA_HOME").map fun x => Respond.resolveFile x "kirblasnoop/profiles").toList ++
    ((sys.env "HOME").map fun h =>
      Respond.resolveFile h ".local/share/kirblasnoop/profiles").toList ++
    ["/usr/local/share/kirblasnoop/profiles", "/usr/share/kirblasnoop/profiles"]

/-- The first of the directories that exists, and else the first of them. -/
def resolveProfileDir : Option String → String
  | some p => p
  | none => ((profileDirs sys).find? sys.isDir).getD "profiles"

/-- `profile::resolve`: a path, or else the name of a profile. -/
def resolve (spec dir : String) : Except StartError String :=
  if sys.isFile spec then .ok spec
  else
    let named := Respond.resolveFile dir (spec ++ ".toml")
    if sys.isFile named then .ok named else .error (.notFound spec named)

def loadFile (path : String) : Except StartError Compiled :=
  match sys.profile path with
  | .error e => .error (.profile e)
  | .ok (L, p) => (load L p).mapError .load

/-! ## What to listen to -/

def parseSpecs : List String → Except StartError (List Config.Listener)
  | [] => .ok []
  | spec :: specs => do
      let l ← (Config.parseSpec spec).mapError .spec
      let ls ← parseSpecs specs
      .ok (l :: ls)

def readConfig : Except StartError (List Config.Listener) :=
  match cli.config with
  | none => .ok []
  | some path => (sys.config path).mapError .config

def gatherListeners : Except StartError (List Config.Listener) := do
  let fromConfig ← readConfig sys cli
  let fromSpecs ← parseSpecs cli.specs
  let listeners := fromConfig ++ fromSpecs
  if listeners.isEmpty then .error .nothing else .ok listeners

/-! ## Their profiles -/

/-- The profile of a listener, or the default one. -/
def profileSpec (l : Config.Listener) : Option String := l.profile.or cli.profile

/-- A profile that was found and compiled, which is told on the console. -/
structure Loaded where
  spec : String
  path : String
  compiled : Compiled

/-- One compiled profile for each name, and those that had to be loaded. -/
def loadProfiles (dir : String) :
    List Config.Listener → Table String Compiled →
      Except StartError (Table String Compiled × List Loaded)
  | [], profiles => .ok (profiles, [])
  | l :: ls, profiles =>
      match profileSpec cli l with
      | none => loadProfiles dir ls profiles
      | some spec =>
          if (profiles.get spec).isSome then loadProfiles dir ls profiles
          else do
            let path ← resolve sys spec dir
            let compiled ← loadFile sys path
            let (profiles, loaded) ← loadProfiles dir ls (profiles.set spec compiled)
            .ok (profiles, ⟨spec, path, compiled⟩ :: loaded)

/-! ## What is started -/

/-- A listener as it is handed to its task. -/
structure Started where
  proto : Proto
  name : String
  bind : String
  profile : Option Compiled
  iface : Option String
  upstream : Option String

/-- The listener of index `i`, with its profile. -/
def startListener (i : ℕ) (l : Config.Listener) (profile : Option Compiled) : Started where
  proto := l.proto
  name := l.name.getD (l.proto.tag ++ ":" ++ toString i)
  bind := l.bind
  profile := profile
  iface := l.iface.or cli.iface
  upstream := l.upstream.or cli.upstream

/-- The listeners from the one of index `i` on. -/
def startAll (profiles : Table String Compiled) : ℕ → List Config.Listener → List Started
  | _, [] => []
  | i, l :: ls =>
      startListener cli i l ((profileSpec cli l).bind profiles.get) ::
        startAll profiles (i + 1) ls

/-- `stream_tail as usize`, on a target of 64 bits. -/
def Cli.options : Options where
  jsonl := !cli.noJsonl && !cli.noFiles
  raw := !cli.noRaw && !cli.noFiles
  jsonlMaxData := cli.jsonlMaxData
  streamLimits := ⟨cli.ring.getD cli.streamHead, (cli.ring.getD cli.streamTail).toNat⟩
  maxRunBytes := cli.maxRunBytes.toNat

structure Plan where
  options : Options
  loaded : List Loaded
  started : List Started

/-- What `main` does before it makes a logger. -/
def plan : Except StartError Plan := do
  let listeners ← gatherListeners sys cli
  let (profiles, loaded) ← loadProfiles sys cli (resolveProfileDir sys cli.profileDir) listeners ∅
  .ok ⟨cli.options, loaded, startAll cli profiles 0 listeners⟩

/-! ## Each listener for itself -/

/-- The profile of that name, as it is now. -/
def fetch (dir spec : String) : Except StartError Compiled := do
  let path ← resolve sys spec dir
  loadFile sys path

def profileOf (dir : String) (l : Config.Listener) : Except StartError (Option Compiled) :=
  match profileSpec cli l with
  | none => .ok none
  | some spec => (fetch sys dir spec).map some

/-- The listeners from the one of index `i` on, none of which shares its
profile. -/
def startEach (dir : String) : ℕ → List Config.Listener → Except StartError (List Started)
  | _, [] => .ok []
  | i, l :: ls => do
      let profile ← profileOf sys cli dir l
      let rest ← startEach dir (i + 1) ls
      .ok (startListener cli i l profile :: rest)

/-- The table holds what fetching the profiles again would give. -/
def Cached (dir : String) (profiles : Table String Compiled) : Prop :=
  ∀ spec c, profiles.get spec = some c → fetch sys dir spec = .ok c

/-- The table has a profile for each of the listeners that has one. -/
def Covers (profiles : Table String Compiled) (ls : List Config.Listener) : Prop :=
  ∀ l ∈ ls, ∀ spec, profileSpec cli l = some spec → (profiles.get spec).isSome

variable {sys cli} {dir : String} {profiles profiles' : Table String Compiled}
  {ls : List Config.Listener} {loaded : List Loaded}

theorem fetch_of_load {spec path : String} {c : Compiled} (hpath : resolve sys spec dir = .ok path)
    (hload : loadFile sys path = .ok c) : fetch sys dir spec = .ok c := by
  unfold fetch
  rw [hpath]
  exact hload

theorem Cached.set (h : Cached sys dir profiles) {spec : String} {c : Compiled}
    (hc : fetch sys dir spec = .ok c) : Cached sys dir (profiles.set spec c) := by
  intro spec' c' hget
  rw [Table.get_set_eq] at hget
  split at hget
  · next heq =>
      obtain rfl := Option.some.inj hget
      rw [heq]
      exact hc
  · exact h spec' c' hget

variable (sys cli dir profiles ls) in
/-- One step of loading: nothing to load, or a profile that is new. -/
theorem loadProfiles_cons (l : Config.Listener) :
    (loadProfiles sys cli dir (l :: ls) profiles = loadProfiles sys cli dir ls profiles ∧
      ∀ spec, profileSpec cli l = some spec → (profiles.get spec).isSome) ∨
    ∃ spec, profileSpec cli l = some spec ∧ profiles.get spec = none ∧
      ((∃ e, fetch sys dir spec = .error e ∧
          loadProfiles sys cli dir (l :: ls) profiles = .error e) ∨
        ∃ path c, resolve sys spec dir = .ok path ∧ loadFile sys path = .ok c ∧
          loadProfiles sys cli dir (l :: ls) profiles =
            (loadProfiles sys cli dir ls (profiles.set spec c)).map
              fun out => (out.1, ⟨spec, path, c⟩ :: out.2)) := by
  simp only [loadProfiles]
  cases hspec : profileSpec cli l with
  | none => exact .inl ⟨rfl, nofun⟩
  | some spec =>
      cases hget : profiles.get spec with
      | some c =>
          refine .inl ⟨if_pos (hget ▸ rfl), ?_⟩
          rintro _ ⟨⟩
          rw [hget]
          rfl
      | none =>
          refine .inr ⟨spec, rfl, hget, ?_⟩
          simp only [hget, Option.isSome_none, Bool.false_eq_true, if_false]
          unfold fetch
          cases hpath : resolve sys spec dir with
          | error e => exact .inl ⟨e, rfl, rfl⟩
          | ok path =>
              cases hload : loadFile sys path with
              | error e => exact .inl ⟨e, hload, by simp [bind, Except.bind, hload]⟩
              | ok c =>
                  refine .inr ⟨path, c, rfl, hload, ?_⟩
                  cases h : loadProfiles sys cli dir ls (profiles.set spec c) <;>
                    simp [bind, Except.bind, Except.map, hload, h]

/-- What loading adds to a table. -/
structure Extends (sys : System) (cli : Cli) (dir : String) (profiles : Table String Compiled)
    (ls : List Config.Listener) (profiles' : Table String Compiled) (loaded : List Loaded) :
    Prop where
  cached : Cached sys dir profiles'
  keeps : ∀ spec, (profiles.get spec).isSome → (profiles'.get spec).isSome
  covers : Covers cli profiles' ls
  nodup : (loaded.map Loaded.spec).Nodup
  fresh : ∀ x ∈ loaded, profiles.get x.spec = none ∧ resolve sys x.spec dir = .ok x.path ∧
    loadFile sys x.path = .ok x.compiled ∧ ∃ l ∈ ls, profileSpec cli l = some x.spec
  all : ∀ l ∈ ls, ∀ spec, profileSpec cli l = some spec →
    (profiles.get spec).isSome ∨ spec ∈ loaded.map Loaded.spec

theorem loadProfiles_ok (hcached : Cached sys dir profiles)
    (h : loadProfiles sys cli dir ls profiles = .ok (profiles', loaded)) :
    Extends sys cli dir profiles ls profiles' loaded := by
  induction ls generalizing profiles loaded with
  | nil =>
      cases h
      exact ⟨hcached, fun _ hs => hs, nofun, List.nodup_nil, nofun, nofun⟩
  | cons l ls ih =>
      rcases loadProfiles_cons sys cli dir profiles ls l with
        ⟨heq, hold⟩ | ⟨spec, hspec, hget, ⟨e, -, heq⟩ | ⟨path, c, hpath, hload, heq⟩⟩
      · rw [heq] at h
        have hrest := ih hcached h
        refine ⟨hrest.cached, hrest.keeps, ?_, hrest.nodup, ?_, ?_⟩
        · refine List.forall_mem_cons.mpr ⟨fun spec hs => ?_, hrest.covers⟩
          exact hrest.keeps spec (hold spec hs)
        · intro x hx
          obtain ⟨hnew, hpath, hload, l', hl', hs⟩ := hrest.fresh x hx
          exact ⟨hnew, hpath, hload, l', List.mem_cons_of_mem _ hl', hs⟩
        · exact List.forall_mem_cons.mpr ⟨fun spec hs => .inl (hold spec hs), hrest.all⟩
      · cases heq.symm.trans h
      · rw [heq] at h
        have hfetch := fetch_of_load hpath hload
        cases hout : loadProfiles sys cli dir ls (profiles.set spec c) with
        | error e =>
            rw [hout] at h
            cases h
        | ok out =>
            rw [hout] at h
            cases h
            have hrest := ih (hcached.set hfetch) hout
            have hmore : ∀ s, (profiles.get s).isSome → ((profiles.set spec c).get s).isSome := by
              intro s hs
              rw [Table.get_set_eq]
              split
              · rfl
              · exact hs
            have hself : ((profiles.set spec c).get spec).isSome := by
              rw [Table.get_set]
              rfl
            refine ⟨hrest.cached, fun s hs => hrest.keeps s (hmore s hs), ?_, ?_, ?_, ?_⟩
            · refine List.forall_mem_cons.mpr ⟨fun s hs => ?_, hrest.covers⟩
              obtain rfl := Option.some.inj (hspec.symm.trans hs)
              exact hrest.keeps spec hself
            · refine List.nodup_cons.mpr ⟨fun hmem => ?_, hrest.nodup⟩
              obtain ⟨x, hx, hxspec⟩ := List.mem_map.mp hmem
              have hnew := (hrest.fresh x hx).1
              rw [hxspec, Table.get_set] at hnew
              cases hnew
            · refine List.forall_mem_cons.mpr
                ⟨⟨hget, hpath, hload, l, List.mem_cons_self, hspec⟩, ?_⟩
              intro x hx
              obtain ⟨hnew, hpath, hload, l', hl', hs⟩ := hrest.fresh x hx
              refine ⟨?_, hpath, hload, l', List.mem_cons_of_mem _ hl', hs⟩
              cases hold : profiles.get x.spec with
              | none => rfl
              | some c' =>
                  have hsome := hmore x.spec (hold ▸ rfl)
                  rw [hnew] at hsome
                  cases hsome
            · refine List.forall_mem_cons.mpr ⟨fun s hs => ?_, fun l' hl' s hs => ?_⟩
              · obtain rfl := Option.some.inj (hspec.symm.trans hs)
                exact .inr List.mem_cons_self
              · rw [List.map_cons, List.mem_cons]
                rcases hrest.all l' hl' s hs with hsome | hmem
                · rw [Table.get_set_eq] at hsome
                  split at hsome
                  · next heq => exact .inr (.inl heq)
                  · exact .inl hsome
                · exact .inr (.inr hmem)

theorem profileOf_of_cached (hcached : Cached sys dir profiles) {l : Config.Listener}
    (hcovers : ∀ spec, profileSpec cli l = some spec → (profiles.get spec).isSome) :
    profileOf sys cli dir l = .ok ((profileSpec cli l).bind profiles.get) := by
  unfold profileOf
  cases hspec : profileSpec cli l with
  | none => rfl
  | some spec =>
      obtain ⟨c, hc⟩ := Option.isSome_iff_exists.mp (hcovers spec hspec)
      dsimp only [Option.bind_some]
      rw [hcached spec c hc, hc]
      rfl

/-- With the profiles at hand, sharing them makes no difference. -/
theorem startEach_of_cached (hcached : Cached sys dir profiles) (hcovers : Covers cli profiles ls)
    (i : ℕ) : startEach sys cli dir i ls = .ok (startAll cli profiles i ls) := by
  induction ls generalizing i with
  | nil => rfl
  | cons l ls ih =>
      obtain ⟨hl, hls⟩ := List.forall_mem_cons.mp hcovers
      unfold startEach
      rw [profileOf_of_cached hcached hl, ih hls]
      rfl

/-- Nor does it when one cannot be loaded. -/
theorem startEach_of_error (hcached : Cached sys dir profiles) {e : StartError}
    (h : loadProfiles sys cli dir ls profiles = .error e) (i : ℕ) :
    startEach sys cli dir i ls = .error e := by
  induction ls generalizing profiles i with
  | nil => cases h
  | cons l ls ih =>
      unfold startEach
      rcases loadProfiles_cons sys cli dir profiles ls l with
        ⟨heq, hold⟩ | ⟨spec, hspec, hget, ⟨e', hfetch, heq⟩ | ⟨path, c, hpath, hload, heq⟩⟩
      · rw [heq] at h
        rw [profileOf_of_cached hcached hold]
        change (startEach sys cli dir (i + 1) ls >>= _) = _
        rw [ih hcached h]
        rfl
      · cases heq.symm.trans h
        have hprofile : profileOf sys cli dir l = .error e := by
          unfold profileOf
          rw [hspec]
          dsimp only
          rw [hfetch]
          rfl
        rw [hprofile]
        rfl
      · have hfetch := fetch_of_load hpath hload
        have hprofile : profileOf sys cli dir l = .ok (some c) := by
          unfold profileOf
          rw [hspec]
          dsimp only
          rw [hfetch]
          rfl
        rw [hprofile]
        change (startEach sys cli dir (i + 1) ls >>= _) = _
        cases hout : loadProfiles sys cli dir ls (profiles.set spec c) with
        | ok out =>
            rw [heq, hout] at h
            cases h
        | error e' =>
            rw [heq, hout] at h
            cases h
            rw [ih (hcached.set hfetch) hout]
            rfl

/-! ## The plan -/

theorem parseSpecs_eq_ok_iff {specs : List String} :
    parseSpecs specs = .ok ls ↔
      List.Forall₂ (fun spec l => Config.parseSpec spec = .ok l) specs ls := by
  induction specs generalizing ls with
  | nil =>
      rw [List.forall₂_nil_left_iff]
      exact ⟨fun h => (Except.ok.inj h).symm, fun h => h ▸ rfl⟩
  | cons spec specs ih =>
      rw [List.forall₂_cons_left_iff]
      simp only [← ih, parseSpecs]
      cases Config.parseSpec spec with
      | error e => simp [bind, Except.bind, Except.mapError]
      | ok l => cases parseSpecs specs <;> simp [bind, Except.bind, Except.mapError, eq_comm]

variable (sys cli) in
theorem gatherListeners_eq_ok_iff :
    gatherListeners sys cli = .ok ls ↔
      ls ≠ [] ∧ ∃ fromConfig fromSpecs, readConfig sys cli = .ok fromConfig ∧
        List.Forall₂ (fun spec l => Config.parseSpec spec = .ok l) cli.specs fromSpecs ∧
          ls = fromConfig ++ fromSpecs := by
  simp only [← parseSpecs_eq_ok_iff, gatherListeners]
  cases readConfig sys cli with
  | error e => simp [bind, Except.bind]
  | ok fromConfig =>
      cases parseSpecs cli.specs with
      | error e => simp [bind, Except.bind]
      | ok fromSpecs =>
          simp only [bind, Except.bind, Except.ok.injEq, exists_and_left, exists_eq_left', ite_eq_iff,
            reduceCtorEq, and_false, false_or, List.isEmpty_iff]
          constructor
          · rintro ⟨hne, rfl⟩
            exact ⟨hne, rfl⟩
          · rintro ⟨hne, rfl⟩
            exact ⟨hne, rfl⟩

theorem cached_empty : Cached sys dir ∅ := by
  intro spec c h
  cases h.symm.trans (Table.get_empty spec)

theorem plan_eq_ok {pl : Plan} (h : plan sys cli = .ok pl) :
    ∃ ls profiles, gatherListeners sys cli = .ok ls ∧
      Extends sys cli (resolveProfileDir sys cli.profileDir) ∅ ls profiles pl.loaded ∧
      pl = ⟨cli.options, pl.loaded, startAll cli profiles 0 ls⟩ := by
  unfold plan at h
  cases hls : gatherListeners sys cli with
  | error e =>
      rw [hls] at h
      cases h
  | ok ls =>
      rw [hls] at h
      change (loadProfiles sys cli _ ls ∅ >>= _) = _ at h
      cases hout : loadProfiles sys cli (resolveProfileDir sys cli.profileDir) ls ∅ with
      | error e =>
          rw [hout] at h
          cases h
      | ok out =>
          rw [hout] at h
          cases h
          exact ⟨ls, out.1, rfl, loadProfiles_ok cached_empty hout, rfl⟩

/-- What is started, or the first error, is the same as if every listener
loaded its profile for itself; but each profile that is named is loaded once.
The listeners are those of the config file and then those of the specs. -/
theorem plan_shares (sys : System) (cli : Cli) :
    (plan sys cli).map Plan.started =
        gatherListeners sys cli >>=
          startEach sys cli (resolveProfileDir sys cli.profileDir) 0 ∧
      (∀ ls, gatherListeners sys cli = .ok ls ↔
        ls ≠ [] ∧ ∃ fromConfig fromSpecs, readConfig sys cli = .ok fromConfig ∧
          List.Forall₂ (fun spec l => Config.parseSpec spec = .ok l) cli.specs fromSpecs ∧
            ls = fromConfig ++ fromSpecs) ∧
      ∀ pl, plan sys cli = .ok pl →
        (pl.loaded.map Loaded.spec).Nodup ∧
          ∀ ls, gatherListeners sys cli = .ok ls → ∀ spec,
            spec ∈ pl.loaded.map Loaded.spec ↔ ∃ l ∈ ls, profileSpec cli l = some spec := by
  refine ⟨?_, fun ls => gatherListeners_eq_ok_iff sys cli, ?_⟩
  · unfold plan
    cases hls : gatherListeners sys cli with
    | error e => rfl
    | ok ls =>
        change Except.map Plan.started (loadProfiles sys cli _ ls ∅ >>= _) =
          startEach sys cli _ 0 ls
        cases hout : loadProfiles sys cli (resolveProfileDir sys cli.profileDir) ls ∅ with
        | error e => exact (startEach_of_error cached_empty hout 0).symm
        | ok out =>
            have hextends := loadProfiles_ok cached_empty hout
            exact (startEach_of_cached hextends.cached hextends.covers 0).symm
  · intro pl hplan
    obtain ⟨ls, profiles, hls, hextends, -⟩ := plan_eq_ok hplan
    refine ⟨hextends.nodup, fun ls' hls' spec => ?_⟩
    obtain rfl := Except.ok.inj (hls.symm.trans hls')
    constructor
    · intro hmem
      obtain ⟨x, hx, rfl⟩ := List.mem_map.mp hmem
      exact (hextends.fresh x hx).2.2.2
    · rintro ⟨l, hl, hspec⟩
      rcases hextends.all l hl spec hspec with hsome | hmem
      · rw [Table.get_empty] at hsome
        cases hsome
      · exact hmem

end KirbLaSnoop
