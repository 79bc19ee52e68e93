import WitnessReplay.Text.Lines

/-!
# The Kotlin harness

The driver calls the program and says so when it returns. The oracle takes the place of the
input provider and hands out the values of a list in order; the line that declares the list is
replaced.
-/

namespace WitnessReplay.Harness.Kotlin

def driver : String := Text.unlines
  ["fun main(args: Array<String>) \x7b",
   "    polywit_main(args)",
   "    println(\"polywit: Witness Spurious\")",
   "\x7d"]

def oracle : String := Text.unlines
  ["package org.polywit.benchmarks",
   "",
   "object Verifier \x7b",
   "    var assumptionList = emptyArray<String?>()",
   "",
   "    private val assumptions = ArrayDeque<String?>(assumptionList.toList())",
   "",
   "    private fun next(): String? \x7b",
   "        check(assumptions.isNotEmpty()) \x7b \"polywit: assumption list exhausted\" \x7d",
   "        return assumptions.removeFirst()",
   "    \x7d",
   "",
   "    private fun value(): String = next() ?: throw IllegalStateException(\"polywit: null assumption\")",
   "",
   "    private fun integral(): String = value().trimEnd('L', 'l')",
   "",
   "    fun assume(condition: Boolean) \x7b",
   "        if (!condition) \x7b",
   "            Runtime.getRuntime().halt(1)",
   "        \x7d",
   "    \x7d",
   "",
   "    fun nondetBoolean(): Boolean = next().toBoolean()",
   "",
   "    fun nondetByte(): Byte = integral().toByte()",
   "",
   "    fun nondetChar(): Char \x7b",
   "        val v = value()",
   "        if (v.length >= 3 && v.startsWith(\"'\") && v.endsWith(\"'\")) \x7b",
   "            return v[1]",
   "        \x7d",
   "        return v.toIntOrNull()?.let \x7b Char(it) \x7d ?: v[0]",
   "    \x7d",
   "",
   "    fun nondetShort(): Short = integral().toShort()",
   "",
   "    fun nondetInt(): Int = integral().toInt()",
   "",
   "    fun nondetLong(): Long = integral().toLong()",
   "",
   "    fun nondetFloat(): Float = value().toFloat()",
   "",
   "    fun nondetDouble(): Double = value().toDouble()",
   "",
   "    fun nondetString(): String? = next()",
   "\x7d"]

end WitnessReplay.Harness.Kotlin
