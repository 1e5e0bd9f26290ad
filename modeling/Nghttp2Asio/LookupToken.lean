import Nghttp2Asio.Http
import Nghttp2Asio.Library.NestedSwitch

/-!
`http2::lookup_token` as genheaderfunc.py writes it: a switch over the length of a name,
then over its last byte, and then comparisons of the bytes in front.
-/
namespace Nghttp2Asio
open Util NestedSwitch

def tokenCases : List (Nat × List (Char × List (String × Token))) :=
  [(2, [('e', [("t", .te)])]),
   (3, [('a', [("vi", .via)])]),
   (4, [('e', [("dat", .date)]), ('k', [("lin", .link)]), ('t', [("hos", .host)])]),
   (5, [('h', [(":pat", .path)]), ('t', [(":hos", .pseudoHost)])]),
   (6, [('e', [("cooki", .cookie)]), ('r', [("serve", .server)]), ('t', [("expec", .expect)])]),
   (7, [('c', [("alt-sv", .altSvc)]), ('d', [(":metho", .method)]),
       ('e', [(":schem", .scheme), ("upgrad", .upgrade)]), ('r', [("traile", .trailer)]),
       ('s', [(":statu", .status)])]),
   (8, [('n', [("locatio", .location)])]),
   (9, [('d', [("forwarde", .forwarded)]), ('l', [(":protoco", .protocol)])]),
   (10, [('a', [("early-dat", .earlyData)]), ('e', [("keep-aliv", .keepAlive)]),
       ('n', [("connectio", .connection)]), ('t', [("user-agen", .userAgent)]),
       ('y', [(":authorit", .authority)])]),
   (12, [('e', [("content-typ", .contentType)])]),
   (13, [('l', [("cache-contro", .cacheControl)])]),
   (14, [('h', [("content-lengt", .contentLength)]), ('s', [("http2-setting", .http2Settings)])]),
   (15, [('e', [("accept-languag", .acceptLanguage)]),
       ('g', [("accept-encodin", .acceptEncoding)]),
       ('r', [("x-forwarded-fo", .xForwardedFor)])]),
   (16, [('n', [("proxy-connectio", .proxyConnection)])]),
   (17, [('e', [("if-modified-sinc", .ifModifiedSince)]),
       ('g', [("transfer-encodin", .transferEncoding)]),
       ('o', [("x-forwarded-prot", .xForwardedProto)]),
       ('y', [("sec-websocket-ke", .secWebsocketKey)])]),
   (20, [('t', [("sec-websocket-accep", .secWebsocketAccept)])])]

def tokenSwitch : Switch UInt8 Token :=
  tokenCases.map (fun c => (c.1, c.2.map (fun d => (d.1.toUInt8, d.2.map (fun e => (lit e.1, e.2))))))

/-- `none` stands for -1. A name is compared only where its length and its last byte fit. -/
def lookupTokenSwitch (name : Bytes) : Option Token := tokenSwitch.find name

theorem tokenSwitch_regular : tokenSwitch.Regular :=
  ⟨by decide +kernel, by decide +kernel, by decide +kernel⟩

theorem tokenSwitch_words : tokenSwitch.words.Perm tokens := by decide +kernel

/-- The switch knows exactly the names of the table, and each by its own token. -/
theorem lookup_token_switch (name : Bytes) :
    lookupTokenSwitch name = lookupToken name ∧
      (∀ token, lookupTokenSwitch name = some token ↔ (name, token) ∈ tokens) ∧
      ∀ other token, lookupTokenSwitch name = some token → lookupTokenSwitch other = some token →
        name = other := by
  have distinct : (tokens.map Prod.fst).Nodup := by decide +kernel
  have single : (tokens.map Prod.snd).Nodup := by decide +kernel
  have same : ∀ name, lookupTokenSwitch name = lookupToken name := by
    intro name
    rw [lookupTokenSwitch, find_words tokenSwitch_regular, lookupToken]
    exact lookup_perm tokenSwitch_words
      ((tokenSwitch_words.map Prod.fst).nodup_iff.mpr distinct) name
  refine ⟨same name, fun token => ?_, fun other token here there => ?_⟩
  · rw [same]
    exact lookup_iff distinct name token
  · rw [same] at here there
    exact congrArg Prod.fst (List.inj_on_of_nodup_map single ((lookup_iff distinct name token).mp here)
      ((lookup_iff distinct other token).mp there) rfl)

end Nghttp2Asio
