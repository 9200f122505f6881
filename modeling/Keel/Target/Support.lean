/-
# The support text

Every emitted text starts with the same C code: the headers, the types of strings and
lists, and the functions that the code of a program calls.  It is given part by part, a
line an entry; an empty line stands between the parts.
-/

namespace Keel.Target
namespace Support

def headers : List String :=
  ["#include <stdbool.h>",
    "#include <stdint.h>",
    "#include <stdio.h>",
    "#include <stdlib.h>",
    "#include <string.h>"]

/-- The type of values that say nothing. -/
def unitType : List String :=
  ["typedef uint8_t kl_unit;"]

/-- A string is bytes and their number; it need not end in a NUL. -/
def strType : List String :=
  ["typedef struct \x7b",
    "    const char *ptr;",
    "    int64_t len;",
    "\x7d kl_str;"]

/-- The elements of a list with room for more. -/
def listData : List String :=
  ["typedef struct \x7b",
    "    int64_t len;",
    "    int64_t cap;",
    "    int64_t elem_size;",
    "    unsigned char *data;",
    "\x7d kl_list_data;"]

/-- Lists are shared, so a list is a pointer. -/
def listType : List String :=
  ["typedef kl_list_data *kl_list;"]

/-- Stops the program with a message and status 101. -/
def fail : List String :=
  ["static _Noreturn void kl_fail(const char *message) \x7b",
    "    fflush(stdout);",
    "    fprintf(stderr, \"panic: %s\\n\", message);",
    "    exit(101);",
    "\x7d"]

/-- The same with a string of the program. -/
def panicWith : List String :=
  ["static inline _Noreturn void kl_panic(kl_str message) \x7b",
    "    fflush(stdout);",
    "    fprintf(stderr, \"panic: %.*s\\n\", (int)message.len, message.ptr);",
    "    exit(101);",
    "\x7d"]

def assertion : List String :=
  ["static inline void kl_assert(bool cond) \x7b",
    "    if (!cond) \x7b",
    "        kl_fail(\"assertion failed\");",
    "    \x7d",
    "\x7d"]

def printSigned : List String :=
  ["static inline void kl_print_i64(int64_t value) \x7b",
    "    printf(\"%lld\\n\", (long long)value);",
    "\x7d"]

def printUnsigned : List String :=
  ["static inline void kl_print_u64(uint64_t value) \x7b",
    "    printf(\"%llu\\n\", (unsigned long long)value);",
    "\x7d"]

def printBool : List String :=
  ["static inline void kl_print_bool(bool value) \x7b",
    "    fputs(value ? \"true\\n\" : \"false\\n\", stdout);",
    "\x7d"]

def printStr : List String :=
  ["static inline void kl_print_str(kl_str value) \x7b",
    "    fwrite(value.ptr, 1, (size_t)value.len, stdout);",
    "    fputc('\\n', stdout);",
    "\x7d"]

def strEq : List String :=
  ["static inline bool kl_str_eq(kl_str a, kl_str b) \x7b",
    "    return a.len == b.len && (a.len == 0 || memcmp(a.ptr, b.ptr, (size_t)a.len) == 0);",
    "\x7d"]

def strConcat : List String :=
  ["static inline kl_str kl_str_concat(kl_str a, kl_str b) \x7b",
    "    int64_t len = a.len + b.len;",
    "    char *buffer = malloc((size_t)len + 1);",
    "    if (!buffer) \x7b",
    "        kl_fail(\"out of memory\");",
    "    \x7d",
    "    memcpy(buffer, a.ptr, (size_t)a.len);",
    "    memcpy(buffer + a.len, b.ptr, (size_t)b.len);",
    "    buffer[len] = '\\0';",
    "    return (kl_str)\x7b buffer, len \x7d;",
    "\x7d"]

def strByteAt : List String :=
  ["static inline uint8_t kl_str_byte_at(kl_str s, int64_t index) \x7b",
    "    if (index < 0 || index >= s.len) \x7b",
    "        kl_fail(\"string index out of bounds\");",
    "    \x7d",
    "    return (uint8_t)s.ptr[index];",
    "\x7d"]

def listNew : List String :=
  ["static inline kl_list kl_list_new(int64_t elem_size) \x7b",
    "    kl_list list = malloc(sizeof(kl_list_data));",
    "    if (!list) \x7b",
    "        kl_fail(\"out of memory\");",
    "    \x7d",
    "    list->len = 0;",
    "    list->cap = 0;",
    "    list->elem_size = elem_size;",
    "    list->data = NULL;",
    "    return list;",
    "\x7d"]

/-- Doubles the room when it is used up. -/
def listPush : List String :=
  ["static inline void kl_list_push(kl_list list, const void *elem) \x7b",
    "    if (list->len == list->cap) \x7b",
    "        int64_t cap = list->cap ? list->cap * 2 : 4;",
    "        unsigned char *data = realloc(list->data, (size_t)(cap * list->elem_size));",
    "        if (!data) \x7b",
    "            kl_fail(\"out of memory\");",
    "        \x7d",
    "        list->data = data;",
    "        list->cap = cap;",
    "    \x7d",
    "    memcpy(list->data + list->len * list->elem_size, elem, (size_t)list->elem_size);",
    "    list->len += 1;",
    "\x7d"]

/-- Where an element is stored. -/
def listAt : List String :=
  ["static inline void *kl_list_at(kl_list list, int64_t index) \x7b",
    "    if (index < 0 || index >= list->len) \x7b",
    "        kl_fail(\"list index out of bounds\");",
    "    \x7d",
    "    return list->data + index * list->elem_size;",
    "\x7d"]

def parts : List (List String) :=
  [headers, unitType, strType, listData, listType, fail, panicWith, assertion,
    printSigned, printUnsigned, printBool, printStr, strEq, strConcat, strByteAt,
    listNew, listPush, listAt]

def lines : List String := List.intercalate [""] parts

/-- Every line is followed by a newline. -/
def text : String := String.join (lines.map (· ++ "\n"))

end Support
end Keel.Target
