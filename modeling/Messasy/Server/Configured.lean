import Messasy.Config.Settings
import Messasy.Server.Archive

/-!
# A server from its files

The modules stay those of the module file; the first configuration and every reloaded one are what
`set_config` makes of some text. So whatever an administrator writes and reloads, and in whatever
order the parties go on, a session only meets settings that passed their checks
(`server_serves`).
-/

namespace Messasy

open Lib

/-- A configuration that `set_config` has made of some text, at some address. -/
def Loader.Makes (ld : Loader (HookCall → Hook)) (loaded : Loaded) : Prop :=
  ∃ addr text log log' cfg password,
    setConfig { ld with addr } (some text) log = (.ok cfg, log') ∧
      cfg.data.pointer .cfAdminpassword = some password ∧
      loaded = ⟨cfg.config addr, password⟩

/-- The hooks are those of the modules in the order of their lines, and each module finds its
settings, which passed their checks. -/
structure Config.Served (ld : Loader (HookCall → Hook)) (cfg : Config) : Prop where
  hooks : ∃ settings : Settings, cfg = settings.loading (ld.mhandleList.reverse.map Lm.code)
  modules : ∀ m ∈ ld.mhandleList, ∃ config,
    findConfig m.code.mymodule cfg.cfExtraconfig = some config ∧ config.Accepted ld.env m

section
variable {ld : Loader (HookCall → Hook)} {loaded first : Loaded} {cfg : Config}

/-- A password that is stored is not empty. -/
theorem adminpassword_ne_nil {P : Type} {ld : Loader P} {text password : Str}
    {data : ConfigData P} (h : data.ReadFrom ld (some text))
    (hp : data.pointer .cfAdminpassword = some password) : password ≠ [] := by
  have hd : (⟨bytes "AdminPassword", .string none, none, .cfAdminpassword⟩ :
    EntryDecl ConfigMember) ∈ Messasy.cfe := by decide +kernel
  have hset := pointer_eq h hd rfl
  rw [hp] at hset
  unfold stringSetting at hset
  split at hset
  · cases hset
  · have hmem := List.mem_of_getLast? hset.symm
    exact of_decide_eq_true (List.mem_filter.1 hmem).2

theorem Loader.Makes.served (hn : ld.mhandleList.Nodup) (hlib : ld.Genuine)
    (hstat : ld.env.RefusesEmpty) (h : ld.Makes loaded) :
    loaded.config.Served ld ∧ loaded.cfAdminpassword ≠ [] := by
  obtain ⟨addr, text, log, log', cfg, password, hset, hp, rfl⟩ := h
  obtain ⟨facility, hload, -⟩ := setConfig_ok hset
  obtain ⟨hread, -⟩ := loadConfig_ok hload
  obtain ⟨hconfig, -, -, hmodules⟩ := @setConfig_serves { ld with addr } _ _ _ _ hn hlib hstat hset
  exact ⟨⟨⟨_, hconfig⟩, hmodules⟩, adminpassword_ne_nil hread hp⟩

/-- With `maildrop` and `lda` only, the configuration keeps books. -/
theorem Config.Served.keepsBooks (h : cfg.Served ld)
    (hmods : ∀ m ∈ ld.mhandleList, m = .maildrop ∨ m = .lda) : cfg.KeepsBooks := by
  obtain ⟨settings, hcfg⟩ := h.hooks
  refine ⟨settings, _, hcfg, fun m hm => ?_⟩
  obtain ⟨lm, hlm, rfl⟩ := List.mem_map.1 hm
  rcases hmods lm (List.mem_reverse.1 hlm) with rfl | rfl
  · exact .inl rfl
  · exact .inr rfl

/-- **A server from its files**: in every run whose configurations `set_config` has made of any
texts, every open session works with the hooks of the modules in the order of their lines and with
settings that passed their checks, and no administration password is empty. -/
theorem server_serves {events : List ServerEvent} {s : Server} (hn : ld.mhandleList.Nodup)
    (hlib : ld.Genuine) (hstat : ld.env.RefusesEmpty) (hfirst : ld.Makes first)
    (hreload : ∀ t cfg, .reload t (some cfg) ∈ events → ld.Makes cfg)
    (h : Server.run events (.start first) = some s) :
    (∀ c ∈ s.conns, ∀ priv, c.world.priv = some priv → priv.config.Served ld) ∧
      (∀ p, (s.loaded p).config.Served ld ∧ (s.loaded p).cfAdminpassword ≠ []) ∧
      ((∀ m ∈ ld.mhandleList, m = .maildrop ∨ m = .lda) →
        ∀ p, (s.loaded p).config.KeepsBooks) := by
  have hall : ∀ p, (s.loaded p).config.Served ld ∧ (s.loaded p).cfAdminpassword ≠ [] := by
    intro p
    rcases Server.run_loaded h p with hp | ⟨t, hp⟩
    · rw [hp]
      exact hfirst.served hn hlib hstat
    · exact (hreload t _ hp).served hn hlib hstat
  refine ⟨fun c hc priv hpriv => ?_, hall, fun hmods p => (hall p).1.keepsBooks hmods⟩
  rcases (Server.Inv.run h).conns c hc with ⟨-, hvalid⟩ | ⟨hnone, -⟩
  · obtain ⟨priv', hpriv', hcfg⟩ := hvalid.priv
    obtain rfl := Option.some.inj (hpriv.symm.trans hpriv')
    rw [hcfg]
    exact (hall c.addr).1
  · cases hpriv.symm.trans hnone

end

/-! ## An example -/

/-- A process that has loaded `maildrop` and then `lda`. -/
def servingLoader : Loader (HookCall → Hook) where
  env := ⟨fun s => s = bytes "127.0.0.1", fun path => if path = [] then .error [] else .ok true,
    bytes "Not a directory", fun _ => .ok (), fun _ => true⟩
  dlsym m _ := some m.code.call
  mhandleList := [.lda, .maildrop]
  addr := 4096
  regcomp _ := none
  msyHostname := bytes "mail"

def servingText : Str :=
  exampleText ["AdminPassword=secret", "MyDomain=a.jp", "SaveMailAddress=@a.jp",
    "MailDir=/var/mail", "MailFolder=.%y", "LDACommand=/bin/deliver %m"]

/-- What `servingText` is made into. -/
def servedFirst : Loaded :=
  match setConfig servingLoader (some servingText) ⟨.LOG, none⟩ with
  | (.ok cfg, _) => ⟨cfg.config 4096, (cfg.data.pointer .cfAdminpassword).getD []⟩
  | (.error _, _) => ⟨failingConfig 0, []⟩

theorem servedFirst_makes : servingLoader.Makes servedFirst := by
  have hrun : (setConfig servingLoader (some servingText) ⟨.LOG, none⟩).1.toOption.any
      (fun cfg => cfg.data.pointer .cfAdminpassword = some (bytes "secret")) = true := by
    decide +kernel
  obtain ⟨cfg, log', hset, hpassword⟩ := setConfig_of_any hrun
  have hp := of_decide_eq_true hpassword
  refine ⟨4096, servingText, ⟨.LOG, none⟩, log', cfg, bytes "secret", hset, hp, ?_⟩
  unfold servedFirst
  rw [hset]
  simp only [hp, Option.getD_some]

/-- A session is open while an administrator reloads the file. -/
def servedRun : List ServerEvent :=
  [.connect .fine, .accept, .accepted true, .line 0 (.line (bytes "LOGIN secret")), .go 0, .go 0,
    .line 0 (.line (bytes "RELOAD")), .go 0, .reload 0 (some servedFirst)]

theorem server_serves_reloaded : ∃ s : Server,
    Server.run servedRun (.start servedFirst) = some s ∧ s.store.curCfg = some 1 ∧
    (∀ c ∈ s.conns, ∀ priv, c.world.priv = some priv → priv.config.Served servingLoader) ∧
    ∀ p, (s.loaded p).config.KeepsBooks := by
  have hrun : (Server.run servedRun (.start servedFirst)).map (·.store.curCfg) = some (some 1) := by
    decide +kernel
  obtain ⟨s, hs, hcur⟩ := Option.map_eq_some_iff.1 hrun
  have hreload : ∀ t cfg, .reload t (some cfg) ∈ servedRun → servingLoader.Makes cfg := by
    intro t cfg hmem
    simp only [servedRun, List.mem_cons, List.not_mem_nil, or_false, reduceCtorEq, false_or,
      ServerEvent.reload.injEq, Option.some.injEq] at hmem
    rw [hmem.2]
    exact servedFirst_makes
  obtain ⟨hsessions, -, hbooks⟩ := server_serves (by decide) (fun _ _ _ => rfl) ⟨_, rfl⟩
    servedFirst_makes hreload hs
  exact ⟨s, hs, hcur, hsessions, hbooks (by decide)⟩

end Messasy
