import Messasy.Client.Line
import Messasy.Client.Login
import Messasy.Config.Load

/-!
# A configured password at the administration port

`AdminPassword` has no check, so that every value of a line is accepted; `read_line` and
`parse_arg` deliver a word of the bytes that fit behind `LOGIN`. A password can be used exactly
when it has no blank and at most 121 bytes (`canLogin_iff`).
-/

namespace Messasy

open Lib

/-- The connection that reads `input` is logged in behind the first command, while `password` is
the current one. -/
def LogsIn (fin : ReadEnd) (input password : Str) : Prop :=
  ∃ line rest q, readLine fin input = (.line line, rest) ∧
    ((Request.start.line (.line line)).bind fun q =>
      (q.go password).bind fun q => q.go password) = some q ∧ q.mc.isAuth = true

/-- Some command line logs in. -/
def CanLogin (password : Str) : Prop := ∃ fin input, LogsIn fin input password

section
variable {line password : Str} {q : Request}

/-- A `LOGIN` line with the password logs in. -/
theorem login_of_line (h : LoginLine (cstr line) password) : ∃ q,
    ((Request.start.line (.line line)).bind fun q =>
      (q.go password).bind fun q => q.go password) = some q ∧ q.mc.isAuth = true := by
  obtain ⟨rest, hreq, harg⟩ := requestLine_login Request.start.mc h
  have hlogin : managerLogin Request.start.mc rest = (Request.start.mc, .retrieve password) := by
    simp only [managerLogin, harg]
    rfl
  have hline : Request.start.line (.line line) = some ⟨Request.start.mc, .retrieve password⟩ := by
    show some (Request.mk (requestLine Request.start.mc (.line line)).1
      (requestLine Request.start.mc (.line line)).2) = _
    rw [hreq, hlogin]
  refine ⟨⟨{ Request.start.mc.reply OK_LOGIN_STRING with
    mcState := Request.start.mc.mcState ||| LOGIN_STATE_AUTH }, .readLine⟩, ?_, by decide⟩
  rw [hline]
  simp only [Request.go, Option.bind_some, ne_eq, not_true_eq_false, if_false]

/-- Only a `LOGIN` line with the password does. -/
theorem line_of_login (hrun : ((Request.start.line (.line line)).bind fun q =>
    (q.go password).bind fun q => q.go password) = some q) (hq : q.mc.isAuth = true) :
    LoginLine (cstr line) password := by
  obtain ⟨q1, hline, hrun⟩ := Option.bind_eq_some_iff.1 hrun
  obtain ⟨q2, hgo, hgo'⟩ := Option.bind_eq_some_iff.1 hrun
  obtain rfl : ⟨(requestLine Request.start.mc (.line line)).1,
    (requestLine Request.start.mc (.line line)).2⟩ = q1 := Option.some.inj hline
  obtain ⟨hstart, hnext⟩ := requestLine_next Request.start.mc (.line line)
  have hoff : Request.start.mc.isAuth = false := by decide
  rcases Request.go_cases hgo with ⟨a, hpc, hmc, hpc2⟩ | ⟨a, w, hpc, -⟩ | ⟨a, hpc, -⟩ | ⟨hpc, -⟩
  · -- the retrieval: what is compared next is the current password
    have hlogin : LoginLine (cstr line) a := by
      rcases hnext with h | h | ⟨h, -⟩ | ⟨a', line', h, he, hl⟩
      · cases h.symm.trans hpc
      · cases h.symm.trans hpc
      · cases h.symm.trans hpc
      · cases h.symm.trans hpc
        cases he
        exact hl
    rcases Request.go_cases hgo' with ⟨b, hb, -⟩ | ⟨b, w, -, -, hauth, -⟩ | ⟨b, hb, -⟩ | ⟨hb, -⟩
    · cases hb.symm.trans hpc2
    · rw [hauth, hmc, hstart, hoff] at hq
      cases hq
    · cases hb.symm.trans hpc2
      exact hlogin
    · cases hb.symm.trans hpc2
  all_goals
    rcases hnext with h | h | ⟨-, h⟩ | ⟨a', line', h, -⟩
    · cases h.symm.trans hpc
    · cases h.symm.trans hpc
    · cases h.symm.trans hoff
    · cases h.symm.trans hpc

/-- `LOGIN` and a blank stand before the password. -/
theorem LoginLine.length (h : LoginLine line password) : password.length + 6 ≤ line.length := by
  obtain ⟨b, name, b1, b2, rfl, -, hname, hne, -⟩ := h
  have hlen : name.length = 5 := by
    rw [← length_lower name, hname]
    rfl
  have hpos := List.length_pos_of_ne_nil hne
  simp only [List.length_append]
  omega

/-- **The passwords that can be used**, among the strings that a line of the file can give. -/
theorem canLogin_iff_of_plain (hne : password ≠ []) (h0 : 0 ∉ password) (hlf : LF ∉ password) :
    CanLogin password ↔ (∀ c ∈ password, isblank c = false) ∧ password.length ≤ 121 := by
  constructor
  · rintro ⟨fin, input, line, rest, q, hread, hrun, hq⟩
    have hlogin := line_of_login hrun hq
    have hfit := readLine_length hread
    have hlen := hlogin.length
    have hcstr : (cstr line).length ≤ line.length := (List.takeWhile_prefix _).length_le
    have hmax : MAX_CMD_LEN = 128 := rfl
    obtain ⟨-, -, -, -, -, -, -, -, -, hword, -⟩ := hlogin
    exact ⟨hword.plain, by omega⟩
  · rintro ⟨hplain, hlen⟩
    have hmem : ∀ c ∈ bytes "LOGIN ", c ≠ 0 ∧ c ≠ LF := by decide +kernel
    have hlogin : LoginLine (bytes "LOGIN " ++ password) password := by
      have hblank : ∀ c ∈ bytes " ", isblank c = true := by decide +kernel
      refine ⟨[], bytes "LOGIN", bytes " ", [], ?_, .nil, rfl, by decide, hblank,
        ⟨hne, hplain⟩, .nil⟩
      rw [List.append_nil, List.nil_append, ← List.append_assoc]
      rfl
    have hnul : 0 ∉ bytes "LOGIN " ++ password := by
      intro hin
      rcases List.mem_append.1 hin with hin | hin
      · exact (hmem 0 hin).1 rfl
      · exact h0 hin
    have hline : LF ∉ bytes "LOGIN " ++ password := by
      intro hin
      rcases List.mem_append.1 hin with hin | hin
      · exact (hmem LF hin).2 rfl
      · exact hlf hin
    have hfit : (bytes "LOGIN " ++ password).length + 2 ≤ MAX_CMD_LEN + 1 := by
      have hmax : MAX_CMD_LEN = 128 := rfl
      have hsix : (bytes "LOGIN ").length = 6 := rfl
      rw [List.length_append]
      omega
    obtain ⟨q, hrun, hq⟩ := login_of_line (cstr_eq hnul ▸ hlogin)
    exact ⟨.eof, _, _, _, q, readLine_line .eof hline hfit [], hrun, hq⟩

end

/-! ## The passwords of accepted files -/

/-- The entry of `cfe`. -/
def adminPassword : EntryDecl ConfigMember :=
  ⟨bytes "AdminPassword", .string none, none, .cfAdminpassword⟩

section
variable {P : Type} {ld : Loader P} {text : Str} {log log' : LogState} {cfg : LoadedConfig P}
  {password : Str}

/-- An accepted password is the value of a line, and not empty. -/
theorem accepted_password (h : setConfig ld (some text) log = (.ok cfg, log'))
    (hp : cfg.data.pointer .cfAdminpassword = some password) :
    password ≠ [] ∧ 0 ∉ password ∧ LF ∉ password := by
  obtain ⟨facility, hload, -⟩ := setConfig_ok h
  obtain ⟨hread, -⟩ := loadConfig_ok hload
  have hd : adminPassword ∈ cfe := by decide
  have hvalue := (pointer_eq hread hd rfl).symm.trans hp
  unfold stringSetting at hvalue
  split at hvalue
  case isTrue => cases hvalue
  case isFalse =>
    have hmem := List.mem_of_getLast? hvalue
    obtain ⟨hmem, hne⟩ := List.mem_filter.1 hmem
    obtain ⟨line, hline, hkey⟩ := exists_line_of_values hmem
    obtain ⟨h0, hlf⟩ := configLines_plain text [] List.not_mem_nil line hline
    obtain ⟨w, rfl, -, -⟩ := keyValue_eq_some.1 hkey
    refine ⟨by simpa using hne, fun hin => h0 ?_, fun hin => hlf ?_⟩
    · exact List.mem_append_right w (List.mem_cons_of_mem _ hin)
    · exact List.mem_append_right w (List.mem_cons_of_mem _ hin)

/-- **A configured password can be used** exactly when it has no blank and at most 121 bytes. -/
theorem canLogin_iff (h : setConfig ld (some text) log = (.ok cfg, log'))
    (hp : cfg.data.pointer .cfAdminpassword = some password) :
    CanLogin password ↔ (∀ c ∈ password, isblank c = false) ∧ password.length ≤ 121 := by
  obtain ⟨hne, h0, hlf⟩ := accepted_password h hp
  exact canLogin_iff_of_plain hne h0 hlf

end

/-- A password of six letters. -/
theorem canLogin_iff_secret : ∃ (cfg : LoadedConfig Unit) (log' : LogState),
    setConfig exampleLoader (some plainText) ⟨.LOG, none⟩ = (.ok cfg, log') ∧
    (CanLogin (bytes "secret") ↔
      (∀ c ∈ bytes "secret", isblank c = false) ∧ (bytes "secret").length ≤ 121) := by
  obtain ⟨cfg, log', h, hp⟩ := plainText_loaded
  exact ⟨cfg, log', h, canLogin_iff h hp⟩

/-- A password with a space. -/
theorem password_with_blank : ¬ ∀ (ld : Loader Unit) (text password : Str) (log log' : LogState)
    (cfg : LoadedConfig Unit), setConfig ld (some text) log = (.ok cfg, log') →
      cfg.data.pointer .cfAdminpassword = some password → CanLogin password := by
  intro hall
  obtain ⟨cfg, log', h, hp, -⟩ := awkwardText_loaded
  have hlogin := hall _ _ _ _ _ _ h hp
  obtain ⟨hne, h0, hlf⟩ := accepted_password h hp
  have hplain := ((canLogin_iff_of_plain hne h0 hlf).1 hlogin).1
  exact absurd (hplain (ch ' ') (by decide)) (by decide)

end Messasy
