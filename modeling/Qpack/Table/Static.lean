import Qpack.Field

/-!
# The static table

Fields that both ends know from the start (RFC 9204, Appendix A), addressed from 0.

* `StaticTable.fields` : the table;
* `StaticTable.field?` : the field at an index;
* `StaticTable.find?`, `StaticTable.findName?` : the least index of a field, of a name.
-/

namespace Qpack.StaticTable

def fields : List Field :=
  [.ofText ":authority" "",
    .ofText ":path" "/",
    .ofText "age" "0",
    .ofText "content-disposition" "",
    .ofText "content-length" "0",
    .ofText "cookie" "",
    .ofText "date" "",
    .ofText "etag" "",
    .ofText "if-modified-since" "",
    .ofText "if-none-match" "",
    .ofText "last-modified" "",
    .ofText "link" "",
    .ofText "location" "",
    .ofText "referer" "",
    .ofText "set-cookie" "",
    .ofText ":method" "CONNECT",
    .ofText ":method" "DELETE",
    .ofText ":method" "GET",
    .ofText ":method" "HEAD",
    .ofText ":method" "OPTIONS",
    .ofText ":method" "POST",
    .ofText ":method" "PUT",
    .ofText ":scheme" "http",
    .ofText ":scheme" "https",
    .ofText ":status" "103",
    .ofText ":status" "200",
    .ofText ":status" "304",
    .ofText ":status" "404",
    .ofText ":status" "503",
    .ofText "accept" "*/*",
    .ofText "accept" "application/dns-message",
    .ofText "accept-encoding" "gzip, deflate, br",
    .ofText "accept-ranges" "bytes",
    .ofText "access-control-allow-headers" "cache-control",
    .ofText "access-control-allow-headers" "content-type",
    .ofText "access-control-allow-origin" "*",
    .ofText "cache-control" "max-age=0",
    .ofText "cache-control" "max-age=2592000",
    .ofText "cache-control" "max-age=604800",
    .ofText "cache-control" "no-cache",
    .ofText "cache-control" "no-store",
    .ofText "cache-control" "public, max-age=31536000",
    .ofText "content-encoding" "br",
    .ofText "content-encoding" "gzip",
    .ofText "content-type" "application/dns-message",
    .ofText "content-type" "application/javascript",
    .ofText "content-type" "application/json",
    .ofText "content-type" "application/x-www-form-urlencoded",
    .ofText "content-type" "image/gif",
    .ofText "content-type" "image/jpeg",
    .ofText "content-type" "image/png",
    .ofText "content-type" "text/css",
    .ofText "content-type" "text/html; charset=utf-8",
    .ofText "content-type" "text/plain",
    .ofText "content-type" "text/plain;charset=utf-8",
    .ofText "range" "bytes=0-",
    .ofText "strict-transport-security" "max-age=31536000",
    .ofText "strict-transport-security" "max-age=31536000; includesubdomains",
    .ofText "strict-transport-security" "max-age=31536000; includesubdomains; preload",
    .ofText "vary" "accept-encoding",
    .ofText "vary" "origin",
    .ofText "x-content-type-options" "nosniff",
    .ofText "x-xss-protection" "1; mode=block",
    .ofText ":status" "100",
    .ofText ":status" "204",
    .ofText ":status" "206",
    .ofText ":status" "302",
    .ofText ":status" "400",
    .ofText ":status" "403",
    .ofText ":status" "421",
    .ofText ":status" "425",
    .ofText ":status" "500",
    .ofText "accept-language" "",
    .ofText "access-control-allow-credentials" "FALSE",
    .ofText "access-control-allow-credentials" "TRUE",
    .ofText "access-control-allow-headers" "*",
    .ofText "access-control-allow-methods" "get",
    .ofText "access-control-allow-methods" "get, post, options",
    .ofText "access-control-allow-methods" "options",
    .ofText "access-control-expose-headers" "content-length",
    .ofText "access-control-request-headers" "content-type",
    .ofText "access-control-request-method" "get",
    .ofText "access-control-request-method" "post",
    .ofText "alt-svc" "clear",
    .ofText "authorization" "",
    .ofText "content-security-policy" "script-src 'none'; object-src 'none'; base-uri 'none'",
    .ofText "early-data" "1",
    .ofText "expect-ct" "",
    .ofText "forwarded" "",
    .ofText "if-range" "",
    .ofText "origin" "",
    .ofText "purpose" "prefetch",
    .ofText "server" "",
    .ofText "timing-allow-origin" "*",
    .ofText "upgrade-insecure-requests" "1",
    .ofText "user-agent" "",
    .ofText "x-forwarded-for" "",
    .ofText "x-frame-options" "deny",
    .ofText "x-frame-options" "sameorigin"]

def field? (index : Nat) : Option Field := fields[index]?

def find? (f : Field) : Option Nat := fields.findIdx? (· == f)

/-- The least index of a field with the given name. -/
def findName? (name : Octets) : Option Nat := fields.findIdx? (·.name == name)

end Qpack.StaticTable
